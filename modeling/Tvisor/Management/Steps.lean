/-
# Tvisor.Management.Steps -- what one operation does to the channel

A thread inside a call relies on two things. The first holds for everyone: counters do not go back,
and a payload that is not retired, or a reply that is not retired, stays as it is (`Forward`). The
second is for those who have a right: while they have it nobody else moves it or writes what goes
with it (`Kept`). Each write of the code is made under a right and keeps the invariant.
-/
import Tvisor.Management.Rights

namespace Tvisor.Management

open Interleave

variable {Tid : Type}

/-! ## What a thread relies on -/

structure Forward (σ σ' : State Tid) : Prop where
  suffix : σ.history <:+ σ'.history
  sequence : σ.mem .sequence ≤ σ'.mem .sequence
  retired : σ.mem .retired ≤ σ'.mem .retired
  taken : σ.mem .taken ≤ σ'.mem .taken
  acknowledged : σ.mem .acknowledged ≤ σ'.mem .acknowledged
  payload : σ'.mem .retired < σ.mem .sequence →
    σ'.mem .operation = σ.mem .operation ∧ σ'.mem .argument = σ.mem .argument
  reply : σ'.mem .retired < σ.mem .acknowledged →
    σ'.mem .result = σ.mem .result ∧ σ'.mem .failed = σ.mem .failed

structure Kept (t : Tid) (σ σ' : State Tid) : Prop where
  owner : (rights σ.history).owner = some t → (rights σ'.history).owner = some t ∧
    σ'.mem .sequence = σ.mem .sequence ∧ (σ.mem .sequence = σ.mem .retired →
      σ'.mem .operation = σ.mem .operation ∧ σ'.mem .argument = σ.mem .argument)
  taking : σ.env.taking = some t → σ'.env.taking = some t ∧ σ'.mem .taken = σ.mem .taken
  pending : (rights σ.history).pending.HeldBy t →
    (rights σ'.history).pending = (rights σ.history).pending ∧ σ'.mem .retired = σ.mem .retired
  request : (rights σ.history).request.HeldBy t →
    (rights σ'.history).request = (rights σ.history).request ∧
    σ'.mem .acknowledged = σ.mem .acknowledged ∧ σ'.mem .result = σ.mem .result ∧
    σ'.mem .failed = σ.mem .failed

structure Later (t : Tid) (σ σ' : State Tid) : Prop where
  forward : Forward σ σ'
  kept : Kept t σ σ'

section Later

variable {t : Tid} {σ σ' σ'' : State Tid}

/-- A step that leaves the memory alone. -/
theorem Forward.of_mem (hsuffix : σ.history <:+ σ'.history) (hmem : σ'.mem = σ.mem) :
    Forward σ σ' := by
  constructor
  case suffix => exact hsuffix
  all_goals rw [hmem]
  all_goals first | exact Nat.le_refl _ | exact fun _ => ⟨rfl, rfl⟩

theorem Forward.trans (h : Forward σ σ') (h' : Forward σ' σ'') : Forward σ σ'' where
  suffix := h.suffix.trans h'.suffix
  sequence := h.sequence.trans h'.sequence
  retired := h.retired.trans h'.retired
  taken := h.taken.trans h'.taken
  acknowledged := h.acknowledged.trans h'.acknowledged
  payload hlt := by
    obtain ⟨hop, harg⟩ := h.payload (h'.retired.trans_lt hlt)
    obtain ⟨hop', harg'⟩ := h'.payload (hlt.trans_le h.sequence)
    exact ⟨hop'.trans hop, harg'.trans harg⟩
  reply hlt := by
    obtain ⟨hresult, hfailed⟩ := h.reply (h'.retired.trans_lt hlt)
    obtain ⟨hresult', hfailed'⟩ := h'.reply (hlt.trans_le h.acknowledged)
    exact ⟨hresult'.trans hresult, hfailed'.trans hfailed⟩

/-- A step that leaves the memory, the rights and the receiver alone. -/
theorem Kept.of_mem (hmem : σ'.mem = σ.mem) (hrights : rights σ'.history = rights σ.history)
    (htaking : σ.env.taking = some t → σ'.env.taking = some t) : Kept t σ σ' := by
  constructor
  case taking =>
    rw [hmem]
    exact fun h => ⟨htaking h, rfl⟩
  all_goals rw [hmem, hrights]
  · exact fun h => ⟨h, rfl, fun _ => ⟨rfl, rfl⟩⟩
  · exact fun _ => ⟨rfl, rfl⟩
  · exact fun _ => ⟨rfl, rfl, rfl, rfl⟩

/-- The writer's payload needs the state in between: what is retired cannot pass the sequence. -/
theorem Kept.trans (hinv' : Consistent σ') (hforward : Forward σ σ') (h : Kept t σ σ')
    (h' : Kept t σ' σ'') : Kept t σ σ'' where
  owner howner := by
    obtain ⟨howner', hsequence, hpayload⟩ := h.owner howner
    obtain ⟨howner'', hsequence', hpayload'⟩ := h'.owner howner'
    refine ⟨howner'', hsequence'.trans hsequence, fun hfree => ?_⟩
    have hfree' : σ'.mem .sequence = σ'.mem .retired := by
      have := hforward.retired
      have := hinv'.counters
      omega
    obtain ⟨hop, harg⟩ := hpayload hfree
    obtain ⟨hop', harg'⟩ := hpayload' hfree'
    exact ⟨hop'.trans hop, harg'.trans harg⟩
  taking htaking := by
    obtain ⟨htaking', htaken⟩ := h.taking htaking
    obtain ⟨htaking'', htaken'⟩ := h'.taking htaking'
    exact ⟨htaking'', htaken'.trans htaken⟩
  pending hheld := by
    obtain ⟨hpending, hretired⟩ := h.pending hheld
    obtain ⟨hpending', hretired'⟩ := h'.pending (hpending.symm ▸ hheld)
    exact ⟨hpending'.trans hpending, hretired'.trans hretired⟩
  request hheld := by
    obtain ⟨hrequest, hack, hresult, hfailed⟩ := h.request hheld
    obtain ⟨hrequest', hack', hresult', hfailed'⟩ := h'.request (hrequest.symm ▸ hheld)
    exact ⟨hrequest'.trans hrequest, hack'.trans hack, hresult'.trans hresult,
      hfailed'.trans hfailed⟩

theorem Later.refl (t : Tid) (σ : State Tid) : Later t σ σ :=
  ⟨.of_mem (List.suffix_refl _) rfl, .of_mem rfl rfl id⟩

theorem Later.trans (hinv' : Consistent σ') (h : Later t σ σ') (h' : Later t σ' σ'') :
    Later t σ σ'' :=
  ⟨h.forward.trans h'.forward, h.kept.trans hinv' h.forward h'.kept⟩

end Later

def channelOutline (Tid : Type) :
    Outline (fun _ : Cell => Nat) Tid Call Outcome (Client Tid) where
  Inv := Consistent
  Guar _ _ _ := True
  Rely := Later
  rely_refl := Later.refl
  rely_trans _ _ _ _ hinv h h' := h.trans hinv h'

/-! ## Frames -/

variable {t : Tid}

/-- The cells that the counters and the flag are kept in. -/
def Cell.IsCount : Cell → Prop
  | .writer | .sequence | .retired | .taken | .acknowledged => True
  | _ => False

section Frames

variable {σ : State Tid} {i : Cpu Tid} {a : Op} {m m' : Memory}
  {g : Rights Tid} {history : History Tid} {client : Client Tid}

theorem Counted.congr (h : Counted m g) (hm : ∀ c : Cell, c.IsCount → m' c = m c) :
    Counted m' g := by
  obtain ⟨h₁, h₂, h₃, h₄, howner, hpending, hrequest⟩ := h
  constructor
  all_goals simp only [hm .writer trivial, hm .sequence trivial, hm .retired trivial,
    hm .taken trivial, hm .acknowledged trivial]
  all_goals assumption

/-- What is idle stays idle, and its number is the same. -/
theorem Tokens.congr {g' : Rights Tid} (h : Tokens client m g history)
    (hpending : g'.pending = .idle ↔ g.pending = .idle)
    (hrequest : g'.request = .idle ↔ g.request = .idle)
    (hsequence : g.pending = .idle → m' .sequence = m .sequence)
    (htaken : g.request = .idle → m' .taken = m .taken) {ev : Happening Tid} :
    Tokens client m' g' (ev :: history) where
  pendings hidle := by
    rw [hpending] at hidle
    rw [hsequence hidle]
    exact h.pendings hidle
  noPendings hidle := h.noPendings (mt hpending.mpr hidle)
  requests hidle := by
    rw [hrequest] at hidle
    rw [htaken hidle]
    obtain ⟨request, hmem, hclient, hseq⟩ := h.requests hidle
    exact ⟨request, (deliveries_suffix (List.suffix_cons _ _)).subset hmem, hclient, hseq⟩
  noRequests hidle := h.noRequests (mt hrequest.mpr hidle)

theorem Tokens.acted (h : Tokens σ.env σ.mem (rights σ.history) σ.history)
    (hpending : ((rights σ.history).next (.act i a)).pending = .idle ↔
      (rights σ.history).pending = .idle)
    (hrequest : ((rights σ.history).next (.act i a)).request = .idle ↔
      (rights σ.history).request = .idle)
    (hsequence : (rights σ.history).pending = .idle →
      (σ.acted i a).mem .sequence = σ.mem .sequence)
    (htaken : (rights σ.history).request = .idle → (σ.acted i a).mem .taken = σ.mem .taken) :
    Tokens (σ.acted i a).env (σ.acted i a).mem (rights (σ.acted i a).history)
      (σ.acted i a).history :=
  h.congr hpending hrequest hsequence htaken

theorem Contents.congr (h : Contents m history) {ev : Happening Tid}
    (hm : ∀ c : Cell, c ≠ .writer → c ≠ .taken → m' c = m c) : Contents m' (ev :: history) where
  payload hlt := by
    simp only [hm .retired nofun nofun, hm .sequence nofun nofun, hm .operation nofun nofun,
      hm .argument nofun nofun] at hlt ⊢
    obtain ⟨operation, hop, hsubmitted⟩ := h.payload hlt
    exact ⟨operation, hop, hsubmitted.mono (List.suffix_cons _ _)⟩
  reply hlt := by
    simp only [hm .retired nofun nofun, hm .acknowledged nofun nofun, hm .result nofun nofun,
      hm .failed nofun nofun] at hlt ⊢
    exact (h.reply hlt).mono (List.suffix_cons _ _)

/-- An operation that stores no number. -/
theorem Records.acted (h : Records m g history) {g' : Rights Tid}
    (hsequence : m' .sequence = m .sequence) (hacknowledged : m' .acknowledged = m .acknowledged)
    (htaken : m .taken ≤ m' .taken)
    (hfresh : ∀ t, g'.request = .fresh t → m .taken < m' .taken ∨ g.request = .fresh t)
    (hpending : g.pending = .lost → g'.pending = .lost)
    (hrequest : g.request = .lost → g'.request = .lost)
    (hstores : a.loc ≠ .sequence) (hanswers : a.loc ≠ .acknowledged) :
    Records m' g' (.act i a :: history) := by
  refine h.cons ?_ ?_ (List.filterMap_cons_none rfl) htaken hfresh trivial nofun hpending
    hrequest ?_
  · rw [hsequence]
    refine h.sequences.of_ne ?_
    rintro j s ⟨⟩
    exact hstores rfl
  · rw [hacknowledged]
    refine h.acknowledgements.of_ne ?_
    rintro j s ⟨⟩
    exact hanswers rfl
  · rintro j s ⟨⟩
    exact absurd rfl hstores

theorem forward_acted
    (hsequence : a.loc = .sequence → σ.mem .sequence ≤ (σ.acted i a).mem .sequence)
    (hretired : a.loc = .retired → σ.mem .retired ≤ (σ.acted i a).mem .retired)
    (htaken : a.loc = .taken → σ.mem .taken ≤ (σ.acted i a).mem .taken)
    (hacknowledged : a.loc = .acknowledged → σ.mem .acknowledged ≤ (σ.acted i a).mem .acknowledged)
    (hpayload : a.loc = .operation ∨ a.loc = .argument → σ.mem .sequence ≤ σ.mem .retired)
    (hreply : a.loc = .result ∨ a.loc = .failed → σ.mem .acknowledged ≤ σ.mem .retired) :
    Forward σ (σ.acted i a) := by
  have hother : ∀ c : Cell, c ≠ a.loc → (σ.acted i a).mem c = σ.mem c :=
    fun c hc => σ.acted_mem_of_ne i hc
  have hmono : ∀ c : Cell, (a.loc = c → σ.mem c ≤ (σ.acted i a).mem c) →
      σ.mem c ≤ (σ.acted i a).mem c := by
    intro c hc
    by_cases heq : a.loc = c
    · exact hc heq
    · exact (hother c fun h => heq h.symm).ge
  have hret := hmono .retired hretired
  refine ⟨List.suffix_cons _ _, hmono _ hsequence, hret, hmono _ htaken, hmono _ hacknowledged,
    fun hlt => ?_, fun hlt => ?_⟩
  · have hne : ¬ (a.loc = .operation ∨ a.loc = .argument) := fun h =>
      absurd (hpayload h) (not_le.mpr (hret.trans_lt hlt))
    exact ⟨hother _ fun h => hne (Or.inl h.symm), hother _ fun h => hne (Or.inr h.symm)⟩
  · have hne : ¬ (a.loc = .result ∨ a.loc = .failed) := fun h =>
      absurd (hreply h) (not_le.mpr (hret.trans_lt hlt))
    exact ⟨hother _ fun h => hne (Or.inl h.symm), hother _ fun h => hne (Or.inr h.symm)⟩

theorem kept_acted
    (howner : (rights σ.history).owner = some t →
      ((rights σ.history).next (.act i a)).owner = some t ∧ a.loc ≠ .sequence ∧
        a.loc ≠ .operation ∧ a.loc ≠ .argument)
    (htaking : σ.env.taking = some t → a.loc ≠ .taken)
    (hpending : (rights σ.history).pending.HeldBy t →
      ((rights σ.history).next (.act i a)).pending = (rights σ.history).pending ∧ a.loc ≠ .retired)
    (hrequest : (rights σ.history).request.HeldBy t →
      ((rights σ.history).next (.act i a)).request = (rights σ.history).request ∧
        a.loc ≠ .acknowledged ∧ a.loc ≠ .result ∧ a.loc ≠ .failed) :
    Kept t σ (σ.acted i a) where
  owner h := by
    obtain ⟨hnext, hsequence, hoperation, hargument⟩ := howner h
    exact ⟨hnext, σ.acted_mem_of_ne i hsequence.symm, fun _ =>
      ⟨σ.acted_mem_of_ne i hoperation.symm, σ.acted_mem_of_ne i hargument.symm⟩⟩
  taking h := ⟨h, σ.acted_mem_of_ne i (htaking h).symm⟩
  pending h := ⟨(hpending h).1, σ.acted_mem_of_ne i (hpending h).2.symm⟩
  request h := by
    obtain ⟨hnext, hack, hresult, hfailed⟩ := hrequest h
    exact ⟨hnext, σ.acted_mem_of_ne i hack.symm, σ.acted_mem_of_ne i hresult.symm,
      σ.acted_mem_of_ne i hfailed.symm⟩

/-- An operation is good if it keeps the invariant, goes forward and leaves the others' rights. -/
theorem does_of (hinv : Consistent (σ.acted i a)) (hforward : Forward σ (σ.acted i a))
    (hkept : ∀ t, t ≠ i.tid → Kept t σ (σ.acted i a)) : (channelOutline Tid).Does i σ a :=
  ⟨hinv, trivial, fun t ht => ⟨hforward, hkept t ht⟩⟩

theorem channelOutline_silent : (channelOutline Tid).Silent := by
  intro i σ a hread hinv
  have hmem : (σ.acted i a).mem = σ.mem := hread.apply_eq σ.mem
  have hrights : rights (σ.acted i a).history = rights σ.history := Rights.next_read _ hread
  have hforward : Forward σ (σ.acted i a) := .of_mem (List.suffix_cons _ _) hmem
  have hkept : ∀ t, Kept t σ (σ.acted i a) := fun t => .of_mem hmem hrights fun h => h
  refine ⟨does_of ⟨?_, ?_, ?_, ?_⟩ hforward fun t _ => hkept t, hforward, hkept i.tid⟩
  · rw [hmem, hrights]
    exact hinv.counted
  · rw [hmem, hrights]
    exact hinv.tokens.congr .rfl .rfl (fun _ => rfl) fun _ => rfl
  · rw [hmem]
    exact hinv.contents.congr fun _ _ _ => rfl
  · rw [hmem, hrights]
    refine hinv.records.cons (hinv.records.sequences.of_ne ?_)
      (hinv.records.acknowledgements.of_ne ?_) (List.filterMap_cons_none rfl) (Nat.le_refl _)
      (fun t h => Or.inr h) trivial nofun id id ?_
    · rintro j s ⟨⟩
      exact hread
    · rintro j s ⟨⟩
      exact hread
    · rintro j s ⟨⟩
      exact hread.elim

end Frames

/-! ## The writes -/

variable {c : Cell} {request : Request}

section Writes

variable {σ : State Tid} {i : Cpu Tid}

theorem ne_of_owner (howner : (rights σ.history).owner = some i.tid) (ht : t ≠ i.tid) :
    (rights σ.history).owner ≠ some t := by
  rw [howner]
  exact fun h => ht (Option.some.inj h).symm

theorem not_heldBy {r : Right Tid} {t' : Tid} (h : r.HeldBy t) (ht : t' ≠ t) : ¬ r.HeldBy t' := by
  intro h'
  cases r with
  | fresh u => exact ht (h'.symm.trans h)
  | used u => exact ht (h'.symm.trans h)
  | free => exact h
  | idle => exact h
  | lost => exact h

/-- The writer flag is free and becomes this thread's. -/
theorem claimWriter_does (hinv : Consistent σ) (hfree : σ.mem .writer = 0) :
    (channelOutline Tid).Does i σ (.exchange .writer 0 1 true) := by
  have hnone : (rights σ.history).owner = none := hinv.counted.owner.mpr hfree
  refine does_of ⟨?_, ?_, ?_, ?_⟩ (forward_acted nofun nofun nofun nofun nofun nofun) fun t _ =>
    kept_acted (fun h => nomatch hnone.symm.trans h) (fun _ => nofun) (fun _ => ⟨rfl, nofun⟩)
      fun _ => ⟨rfl, nofun, nofun, nofun⟩
  · obtain ⟨h₁, h₂, h₃, h₄, _, hpending, hrequest⟩ := hinv.counted
    refine ⟨h₁, h₂, h₃, h₄, ⟨nofun, ?_⟩, hpending, hrequest⟩
    rw [σ.acted_exchange_self i]
    nofun
  · exact hinv.tokens.acted .rfl .rfl (fun _ => rfl) fun _ => rfl
  · exact hinv.contents.congr fun _ hc _ => by exact σ.acted_mem_of_ne i hc
  · exact hinv.records.acted rfl rfl (Nat.le_refl _) (fun _ => Or.inr) id id nofun nofun

theorem releaseWriter_does (hinv : Consistent σ)
    (howner : (rights σ.history).owner = some i.tid) :
    (channelOutline Tid).Does i σ (.store .writer 0) := by
  refine does_of ⟨?_, ?_, ?_, ?_⟩ (forward_acted nofun nofun nofun nofun nofun nofun) fun t ht =>
    kept_acted (fun h => absurd h (ne_of_owner howner ht)) (fun _ => nofun) (fun _ => ⟨rfl, nofun⟩)
      fun _ => ⟨rfl, nofun, nofun, nofun⟩
  · obtain ⟨h₁, h₂, h₃, h₄, _, hpending, hrequest⟩ := hinv.counted
    exact ⟨h₁, h₂, h₃, h₄, ⟨fun _ => σ.acted_store_self i _ _, fun _ => rfl⟩, hpending, hrequest⟩
  · exact hinv.tokens.acted .rfl .rfl (fun _ => rfl) fun _ => rfl
  · exact hinv.contents.congr fun _ hc _ => by exact σ.acted_mem_of_ne i hc
  · exact hinv.records.acted rfl rfl (Nat.le_refl _) (fun _ => Or.inr) id id nofun nofun

/-- A cell of the payload or of the reply is written where it does not stand for anything. -/
theorem writeData_does (hinv : Consistent σ) (hc : ¬ c.IsCount) (v : Nat)
    (hpayload : c = .operation ∨ c = .argument →
      (rights σ.history).owner = some i.tid ∧ σ.mem .sequence ≤ σ.mem .retired)
    (hreply : c = .result ∨ c = .failed →
      (rights σ.history).request.HeldBy i.tid ∧ σ.mem .acknowledged ≤ σ.mem .retired) :
    (channelOutline Tid).Does i σ (.store c v) := by
  have hmem : ∀ c', c' ≠ c → (σ.acted i (.store c v)).mem c' = σ.mem c' :=
    fun c' hc' => σ.acted_mem_of_ne i hc'
  have hne : ∀ c' : Cell, c'.IsCount → c ≠ c' := fun c' hcount heq => hc (heq ▸ hcount)
  have hcount : ∀ c' : Cell, c'.IsCount → (σ.acted i (.store c v)).mem c' = σ.mem c' :=
    fun c' h => hmem c' (hne c' h).symm
  have hrights : rights (σ.acted i (.store c v)).history = rights σ.history := by
    cases c <;> first | rfl | exact (hc trivial).elim
  refine does_of ⟨?_, ?_, ⟨fun hlt => ?_, fun hlt => ?_⟩, ?_⟩ ?_
    fun t ht => kept_acted (fun h => ?_)
    (fun _ => hne _ trivial) (fun _ => ⟨congrArg Rights.pending hrights, hne _ trivial⟩) fun h => ?_
  · rw [hrights]
    exact hinv.counted.congr hcount
  · rw [hrights]
    exact hinv.tokens.congr .rfl .rfl (fun _ => hcount _ trivial) fun _ => hcount _ trivial
  · rw [hcount .retired trivial, hcount .sequence trivial] at hlt
    have hother : ¬ (c = .operation ∨ c = .argument) := fun h => absurd (hpayload h).2 hlt.not_ge
    rw [hcount .sequence trivial, hmem .operation fun h => hother (Or.inl h.symm),
      hmem .argument fun h => hother (Or.inr h.symm)]
    obtain ⟨operation, hop, hsubmitted⟩ := hinv.contents.payload hlt
    exact ⟨operation, hop, hsubmitted.mono (List.suffix_cons _ _)⟩
  · rw [hcount .retired trivial, hcount .acknowledged trivial] at hlt
    have hother : ¬ (c = .result ∨ c = .failed) := fun h => absurd (hreply h).2 hlt.not_ge
    rw [hcount .acknowledged trivial, hmem .result fun h => hother (Or.inl h.symm),
      hmem .failed fun h => hother (Or.inr h.symm)]
    exact (hinv.contents.reply hlt).mono (List.suffix_cons _ _)
  · rw [hrights]
    exact hinv.records.acted (hcount _ trivial) (hcount _ trivial) (hcount .taken trivial).ge
      (fun _ => Or.inr) id id (hne _ trivial) (hne _ trivial)
  · exact forward_acted (fun h => absurd h (hne _ trivial)) (fun h => absurd h (hne _ trivial))
      (fun h => absurd h (hne _ trivial)) (fun h => absurd h (hne _ trivial))
      (fun h => (hpayload h).2) fun h => (hreply h).2
  · have hother : ¬ (c = .operation ∨ c = .argument) := fun hc' =>
      ne_of_owner (hpayload hc').1 ht h
    exact ⟨(congrArg Rights.owner hrights).trans h, hne _ trivial, fun hc' => hother (Or.inl hc'),
      fun hc' => hother (Or.inr hc')⟩
  · have hother : ¬ (c = .result ∨ c = .failed) := fun hc' => not_heldBy (hreply hc').1 ht h
    exact ⟨congrArg Rights.request hrights, hne _ trivial, fun hc' => hother (Or.inl hc'),
      fun hc' => hother (Or.inr hc')⟩

/-- The payload is written while no request is pending. -/
theorem writePayload_does (hinv : Consistent σ) (howner : (rights σ.history).owner = some i.tid)
    (hfree : σ.mem .sequence = σ.mem .retired) (hc : c = .operation ∨ c = .argument) (v : Nat) :
    (channelOutline Tid).Does i σ (.store c v) := by
  refine writeData_does hinv ?_ v (fun _ => ⟨howner, hfree.le⟩) ?_
  · rcases hc with rfl | rfl <;> exact id
  · rcases hc with rfl | rfl <;> nofun

/-- The next number is published, with its payload in place. No drop has come before: a dropped
right would keep the counters apart. -/
theorem publish_does (hinv : Consistent σ) (howner : (rights σ.history).owner = some i.tid)
    (hfree : σ.mem .sequence = σ.mem .retired) {operation : Operation}
    (hcall : i.call = .submit operation (σ.mem .argument))
    (hoperation : σ.mem .operation = operation.toWord) :
    (channelOutline Tid).Does i σ (.store .sequence (σ.mem .sequence + 1)) := by
  obtain ⟨h₁, h₂, h₃, h₄, howner', hpending, hrequest⟩ := hinv.counted
  have hnone : (rights σ.history).pending = .free := hpending.mpr hfree
  have hidle : (rights σ.history).request = .free := hrequest.mpr (by omega)
  refine does_of ⟨?_, ?_, ?_, ?_⟩
    (forward_acted (fun _ => Nat.le_succ _) nofun nofun nofun nofun nofun)
    fun t ht => kept_acted (fun h => absurd h (ne_of_owner howner ht)) (fun _ => nofun)
      (fun h => (hnone ▸ h : Right.HeldBy t .free).elim) fun _ => ⟨rfl, nofun, nofun, nofun⟩
  · refine ⟨h₁, h₂, h₃.trans (Nat.le_succ _), Nat.succ_le_succ hfree.le, howner', ⟨nofun, ?_⟩,
      hrequest⟩
    exact fun heq => absurd (heq.trans hfree.symm) (Nat.succ_ne_self _)
  · refine hinv.tokens.acted ⟨nofun, fun h => ?_⟩ .rfl (fun h => ?_) fun _ => rfl
    · exact nomatch hnone.symm.trans h
    · exact nomatch hnone.symm.trans h
  · refine ⟨fun _ => ⟨operation, hoperation, i, hcall, List.mem_cons_self⟩, fun hlt => ?_⟩
    have hlt : σ.mem .retired < σ.mem .acknowledged := hlt
    omega
  · have hkept : ¬ Dropped σ.history := fun hd => by
      rcases hinv.records.dropped hd with hlost | hlost
      · exact nomatch hnone.symm.trans hlost
      · exact nomatch hidle.symm.trans hlost
    refine hinv.records.cons (hinv.records.sequences.store (Nat.lt_succ_self _) i)
      (hinv.records.acknowledgements.of_ne nofun) (List.filterMap_cons_none rfl) (Nat.le_refl _)
      (fun t h => Or.inr h) trivial nofun (fun h => ?_) (fun h => h) fun _ _ _ => hkept
    exact nomatch hnone.symm.trans h

/-- The pending request is claimed. -/
theorem claimRequest_does (hinv : Consistent σ) (htaking : σ.env.taking = some i.tid)
    (hahead : σ.mem .taken < σ.mem .sequence) :
    (channelOutline Tid).Does i σ (.exchange .taken (σ.mem .taken) (σ.mem .sequence) true) := by
  obtain ⟨h₁, h₂, h₃, h₄, howner, hpending, hrequest⟩ := hinv.counted
  have hnone : (rights σ.history).request = .free := hrequest.mpr (by omega)
  refine does_of
    ⟨?_, ?_, hinv.contents.congr fun _ _ hc => by exact σ.acted_mem_of_ne i hc, ?_⟩
    (forward_acted nofun nofun (fun _ => hahead.le) nofun nofun nofun)
    fun t ht => kept_acted (fun h => ⟨h, nofun, nofun, nofun⟩) (fun h => ?_) (fun _ => ⟨rfl, nofun⟩)
      fun h => (hnone ▸ h : Right.HeldBy t .free).elim
  · refine ⟨h₁, h₂.trans hahead.le, Nat.le_refl _, h₄, howner, hpending, ⟨nofun, ?_⟩⟩
    exact fun heq => absurd (heq ▸ h₂) (not_le.mpr hahead)
  · refine hinv.tokens.acted .rfl ⟨nofun, fun h => ?_⟩ (fun _ => rfl) fun h => ?_
    · exact nomatch hnone.symm.trans h
    · exact nomatch hnone.symm.trans h
  · refine hinv.records.acted rfl rfl hahead.le (fun t _ => Or.inl hahead) (fun h => h)
      (fun h => ?_) nofun nofun
    exact nomatch hnone.symm.trans h
  · rw [htaking] at h
    exact absurd (Option.some.inj h).symm ht

/-- The reply is written while the request is not answered: the acknowledged number is behind the
taken one, so it is retired. -/
theorem writeReply_does (hinv : Consistent σ) (hused : (rights σ.history).request = .used i.tid)
    (hc : c = .result ∨ c = .failed) (v : Nat) :
    (channelOutline Tid).Does i σ (.store c v) := by
  have hapart : σ.mem .acknowledged ≠ σ.mem .taken := fun heq =>
    nomatch hused.symm.trans (hinv.counted.request.mpr heq)
  have hheld : (rights σ.history).request.HeldBy i.tid := by
    rw [hused]
    exact rfl
  refine writeData_does hinv ?_ v ?_ fun _ => ⟨hheld, ?_⟩
  · rcases hc with rfl | rfl <;> exact id
  · rcases hc with rfl | rfl <;> nofun
  · have := hinv.counters
    omega

/-- The reply is published under the number of its request. -/
theorem acknowledge_does (hinv : Consistent σ) (hused : (rights σ.history).request = .used i.tid)
    (hcall : i.call = .acknowledge request ⟨σ.mem .result, σ.mem .failed != 0⟩)
    (hsequence : request.sequence = σ.mem .taken) (hdelivered : request ∈ deliveries σ.history) :
    (channelOutline Tid).Does i σ (.store .acknowledged request.sequence) := by
  obtain ⟨h₁, h₂, h₃, h₄, howner, hpending, hrequest⟩ := hinv.counted
  have hapart : σ.mem .acknowledged < σ.mem .taken :=
    lt_of_le_of_ne h₂ fun heq => nomatch hused.symm.trans (hrequest.mpr heq)
  rw [hsequence]
  refine does_of ⟨?_, ?_, ?_, ?_⟩
    (forward_acted nofun nofun nofun (fun _ => hapart.le) nofun nofun)
    fun t ht => kept_acted (fun h => ⟨h, nofun, nofun, nofun⟩) (fun _ => nofun)
      (fun _ => ⟨rfl, nofun⟩) fun h => absurd h (not_heldBy (hused.symm ▸ rfl) ht)
  · exact ⟨h₁.trans hapart.le, Nat.le_refl _, h₃, h₄, howner, hpending,
      ⟨fun _ => rfl, fun _ => rfl⟩⟩
  · refine hinv.tokens.acted .rfl ⟨nofun, fun h => ?_⟩ (fun _ => rfl) fun _ => rfl
    exact nomatch hused.symm.trans h
  · refine ⟨fun hlt => ?_, fun _ => ⟨i, request, hcall, hsequence, ?_, ?_⟩⟩
    · obtain ⟨operation, hop, hsubmitted⟩ := hinv.contents.payload hlt
      exact ⟨operation, hop, hsubmitted.mono (List.suffix_cons _ _)⟩
    · exact (deliveries_suffix (List.suffix_cons _ _)).subset hdelivered
    · exact List.mem_cons_self
  · refine hinv.records.cons (hinv.records.sequences.of_ne nofun)
      (hinv.records.acknowledgements.store hapart i) (List.filterMap_cons_none rfl) (Nat.le_refl _)
      nofun trivial nofun (fun h => h) (fun h => ?_) nofun
    exact nomatch hused.symm.trans h

/-- The number is retired, and the channel is free. -/
theorem retire_does (hinv : Consistent σ) (hused : (rights σ.history).pending = .used i.tid)
    (hanswered : σ.mem .acknowledged = σ.mem .sequence) :
    (channelOutline Tid).Does i σ (.store .retired (σ.mem .sequence)) := by
  obtain ⟨h₁, h₂, h₃, h₄, howner, hpending, hrequest⟩ := hinv.counted
  refine does_of ⟨?_, ?_, ⟨fun hlt => ?_, fun hlt => ?_⟩, ?_⟩
    (forward_acted nofun (fun _ => h₁.trans (h₂.trans h₃)) nofun nofun nofun nofun)
    fun t ht => kept_acted (fun h => ⟨h, nofun, nofun, nofun⟩) (fun _ => nofun)
      (fun h => absurd h (not_heldBy (hused.symm ▸ rfl) ht)) fun _ => ⟨rfl, nofun, nofun, nofun⟩
  · exact ⟨hanswered.ge, h₂, h₃, Nat.le_succ _, howner, ⟨fun _ => rfl, fun _ => rfl⟩, hrequest⟩
  · refine hinv.tokens.acted ⟨nofun, fun h => ?_⟩ .rfl (fun _ => rfl) fun _ => rfl
    exact nomatch hused.symm.trans h
  · exact absurd hlt (Nat.lt_irrefl _)
  · exact absurd (hanswered ▸ hlt) (Nat.lt_irrefl _)
  · refine hinv.records.acted rfl rfl (Nat.le_refl _) (fun _ => Or.inr) (fun h => ?_) (fun h => h)
      nofun nofun
    exact nomatch hused.symm.trans h

end Writes

/-! ## Starts and returns -/

/-- A right that this thread may have moved at the start or the end of a call. -/
structure Moved (t : Tid) (r r' : Right Tid) : Prop where
  free : r' = .free ↔ r = .free
  others : ∀ t', t' ≠ t → r.HeldBy t' → r' = r
  lost : r = .lost → r' = .lost

section Events

variable {σ : State Tid} {ev : Happening Tid} {env : Client Tid} {r : Right Tid}

theorem Moved.refl : Moved t r r := ⟨.rfl, fun _ _ _ => rfl, id⟩

/-- A call puts its right into the hands of the client. -/
theorem Moved.to_idle (h : r = .fresh t ∨ r = .used t) : Moved t r .idle := by
  have hheld : r.HeldBy t := by
    rcases h with rfl | rfl <;> exact rfl
  refine ⟨⟨nofun, ?_⟩, fun t' ht h' => absurd h' (not_heldBy hheld ht), ?_⟩
  · rcases h with rfl | rfl <;> nofun
  · rcases h with rfl | rfl <;> nofun

/-- A call takes it out of them. -/
theorem Moved.of_idle {r' : Right Tid} (h : r = .idle) (hr' : r' ≠ .free) : Moved t r r' := by
  subst h
  exact ⟨⟨fun heq => absurd heq hr', nofun⟩, fun _ _ h => h.elim, nofun⟩

/-- An event that leaves the memory alone and moves the rights to `g`. -/
theorem good_event {g : Rights Tid} (hinv : Consistent σ) (hnext : (rights σ.history).next ev = g)
    (howner : g.owner = (rights σ.history).owner)
    (hpending : Moved t (rights σ.history).pending g.pending)
    (hrequest : Moved t (rights σ.history).request g.request)
    (htaking : ∀ t', t' ≠ t → σ.env.taking = some t' → env.taking = some t')
    (htokens : Tokens env σ.mem g (ev :: σ.history))
    (hrecords : Records σ.mem g (ev :: σ.history)) :
    (channelOutline Tid).Good t σ ev ⟨σ.mem, env, ev :: σ.history⟩ := by
  subst hnext
  refine ⟨⟨?_, htokens, hinv.contents.congr fun _ _ _ => rfl, hrecords⟩, trivial, fun t' ht' => ?_⟩
  · obtain ⟨h₁, h₂, h₃, h₄, howner', hpending', hrequest'⟩ := hinv.counted
    refine ⟨h₁, h₂, h₃, h₄, ?_, hpending.free.trans hpending', hrequest.free.trans hrequest'⟩
    rw [← howner', ← howner]
    exact Iff.rfl
  · refine ⟨.of_mem (List.suffix_cons _ _) rfl, ?_, ?_, ?_, ?_⟩
    · exact fun h => ⟨howner.trans h, rfl, fun _ => ⟨rfl, rfl⟩⟩
    · exact fun h => ⟨htaking t' ht' h, rfl⟩
    · exact fun h => ⟨hpending.others t' ht' h, rfl⟩
    · exact fun h => ⟨hrequest.others t' ht' h, rfl, rfl, rfl⟩

section Tokens

variable {client : Client Tid} {m : Memory} {g : Rights Tid} {history : History Tid}

theorem Tokens.movePending (h : Tokens client m g history) {pendings : List Nat}
    (hidle : r = .idle → pendings = [m .sequence]) (hnot : r ≠ .idle → pendings = []) :
    Tokens { client with pendings } m { g with pending := r } (ev :: history) where
  pendings := hidle
  noPendings := hnot
  requests hrequest := by
    obtain ⟨request, hmem, hclient, hsequence⟩ := h.requests hrequest
    exact ⟨request, (deliveries_suffix (List.suffix_cons _ _)).subset hmem, hclient, hsequence⟩
  noRequests := h.noRequests

theorem Tokens.moveRequest (h : Tokens client m g history) {requests : List Request}
    {taking : Option Tid}
    (hidle : r = .idle → ∃ request ∈ deliveries (ev :: history),
      requests = [request] ∧ request.sequence = m .taken)
    (hnot : r ≠ .idle → requests = []) :
    Tokens { client with requests, taking } m { g with request := r } (ev :: history) where
  pendings := h.pendings
  noPendings := h.noPendings
  requests := hidle
  noRequests := hnot

/-- A `Pending` that a client has is the right to retire the current number. -/
theorem Tokens.of_mem_pendings {s : Nat} (h : Tokens client m g history)
    (hmem : s ∈ client.pendings) :
    g.pending = .idle ∧ s = m .sequence ∧ client.pendings.erase s = [] := by
  have hidle : g.pending = .idle := by
    by_contra hnot
    rw [h.noPendings hnot] at hmem
    exact nomatch hmem
  have hpendings := h.pendings hidle
  rw [hpendings] at hmem ⊢
  obtain rfl := List.mem_singleton.mp hmem
  exact ⟨hidle, rfl, by simp⟩

theorem Tokens.of_mem_requests (h : Tokens client m g history) (hmem : request ∈ client.requests) :
    g.request = .idle ∧ request.sequence = m .taken ∧ request ∈ deliveries history ∧
      client.requests.erase request = [] := by
  have hidle : g.request = .idle := by
    by_contra hnot
    rw [h.noRequests hnot] at hmem
    exact nomatch hmem
  obtain ⟨request', hdelivered, hrequests, hsequence⟩ := h.requests hidle
  rw [hrequests] at hmem ⊢
  obtain rfl := List.mem_singleton.mp hmem
  exact ⟨hidle, hsequence, hdelivered, by simp⟩

end Tokens

section Records

variable {m : Memory} {g g' : Rights Tid} {history : History Tid}

theorem Records.event (h : Records m g history) (hact : ∀ i a, ev ≠ .act i a)
    (hdelivery : delivery ev = none)
    (hfresh : ∀ t, g'.request = .fresh t → g.request = .fresh t)
    (hhonest : Honest (ev :: history) ev)
    (hstart : ∀ i, ev = .start i → ¬ Dropped [ev])
    (hpending : g.pending = .lost → g'.pending = .lost)
    (hrequest : g.request = .lost → g'.request = .lost) : Records m g' (ev :: history) :=
  h.cons (h.sequences.of_ne fun i _ => hact i _) (h.acknowledgements.of_ne fun i _ => hact i _)
    (List.filterMap_cons_none hdelivery) (Nat.le_refl _) (fun t ht => Or.inr (hfresh t ht)) hhonest
    hstart hpending hrequest fun i _ heq => absurd heq (hact i _)

/-- A request is delivered that was being taken. -/
theorem Records.deliver (h : Records m g history) {i : Cpu Tid} (hg : g.request = .fresh t)
    (hg' : g' = { g with request := .idle }) (hsequence : request.sequence = m .taken)
    (hsubmitted : Submitted history request.sequence request.operation request.argument) :
    Records m g' (.ret i (.taken (.ok (some request))) :: history) := by
  have hdeliveries : deliveries (.ret i (.taken (.ok (some request))) :: history) =
      request :: deliveries history := List.filterMap_cons_some rfl
  have hsuffix : history <:+ .ret i (.taken (.ok (some request))) :: history :=
    List.suffix_cons _ _
  subst hg'
  constructor
  case sequences => exact h.sequences.of_ne nofun
  case acknowledgements => exact h.acknowledgements.of_ne nofun
  case delivered =>
    rw [hdeliveries]
    exact List.forall_mem_cons.mpr ⟨hsequence.le, h.delivered⟩
  case fresh => exact nofun
  case once =>
    rw [hdeliveries, List.map_cons, List.nodup_cons]
    refine ⟨fun hmem => ?_, h.once⟩
    obtain ⟨earlier, hearlier, heq⟩ := List.mem_map.mp hmem
    exact absurd (heq.trans hsequence) (h.fresh t hg earlier hearlier).ne
  case honest =>
    intro ev hev
    rcases List.mem_cons.mp hev with rfl | hold
    · exact hsubmitted.mono hsuffix
    · exact (h.honest ev hold).mono hsuffix
  case dropped =>
    rintro ⟨j, hmem, hcall⟩
    have hold := (List.mem_cons.mp hmem).resolve_left nofun
    rcases h.dropped ⟨j, hold, hcall⟩ with hlost | hlost
    · exact Or.inl hlost
    · exact nomatch hg.symm.trans hlost
  case last =>
    intro j s older hsuffix'
    exact h.last j s older ((List.suffix_cons_iff.mp hsuffix').resolve_left nofun)

/-- Something is dropped, and its right is lost. -/
theorem Records.drop (h : Records m g history) {i : Cpu Tid}
    (hlost : g'.pending = .lost ∨ g'.request = .lost)
    (hfresh : ∀ t, g'.request = .fresh t → g.request = .fresh t) :
    Records m g' (.start i :: history) := by
  have hdeliveries : deliveries (.start i :: history) = deliveries history :=
    List.filterMap_cons_none rfl
  constructor
  case sequences => exact h.sequences.of_ne fun j _ => Event.start_ne_act i j _
  case acknowledgements => exact h.acknowledgements.of_ne fun j _ => Event.start_ne_act i j _
  case delivered =>
    rw [hdeliveries]
    exact h.delivered
  case fresh =>
    rw [hdeliveries]
    exact fun t ht => h.fresh t (hfresh t ht)
  case once =>
    rw [hdeliveries]
    exact h.once
  case honest =>
    intro ev hev
    rcases List.mem_cons.mp hev with rfl | hold
    · trivial
    · exact (h.honest ev hold).mono (List.suffix_cons _ _)
  case dropped => exact fun _ => hlost
  case last =>
    intro j s older hsuffix
    refine h.last j s older ((List.suffix_cons_iff.mp hsuffix).resolve_left fun heq => ?_)
    exact Event.start_ne_act i j _ (List.cons.inj heq).1.symm

end Records

/-- An event that moves no right, delivers nothing and drops nothing. -/
theorem good_plain (hinv : Consistent σ) (hnext : (rights σ.history).next ev = rights σ.history)
    (hact : ∀ i a, ev ≠ .act i a) (hdelivery : delivery ev = none)
    (hhonest : Honest (ev :: σ.history) ev) (hstart : ∀ i, ev = .start i → ¬ Dropped [ev])
    (hpendings : env.pendings = σ.env.pendings) (hrequests : env.requests = σ.env.requests)
    (htaking : ∀ t', t' ≠ t → σ.env.taking = some t' → env.taking = some t') :
    (channelOutline Tid).Good t σ ev ⟨σ.mem, env, ev :: σ.history⟩ := by
  refine good_event hinv hnext rfl .refl .refl htaking ?_
    (hinv.records.event hact hdelivery (fun _ => id) hhonest hstart id id)
  obtain ⟨hone, hnone, hsome, hno⟩ : Tokens σ.env σ.mem (rights σ.history) (ev :: σ.history) :=
    hinv.tokens.congr .rfl .rfl (fun _ => rfl) fun _ => rfl
  rw [← hpendings] at hone hnone
  rw [← hrequests] at hsome hno
  exact ⟨hone, hnone, hsome, hno⟩

end Events

end Tvisor.Management
