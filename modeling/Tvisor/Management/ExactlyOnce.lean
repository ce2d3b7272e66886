/-
# Tvisor.Management.ExactlyOnce -- a request is taken once and gets its own reply

The payload and the reply are written and read with no order of their own; what protects them is
the discipline of the numbers. Each method is followed here from the right it starts with to the
right it leaves: `submit` makes the right to retire, `take` the right to answer, and each of them
is given up only when the counter that goes with it has moved.
-/
import Tvisor.Lib.Traces
import Tvisor.Management.Steps

namespace Tvisor.Management

open Interleave

variable {Tid : Type} {pending : Pending} {request : Request}

/-! ## What a right is good for -/

section Rights

variable {t : Tid} {σ σ' : State Tid}

/-- While the flag is held and no request is pending, none becomes pending. -/
theorem Later.free (h : Later t σ σ') (hinv' : Consistent σ')
    (howner : (rights σ.history).owner = some t) (hfree : σ.mem .sequence = σ.mem .retired) :
    (rights σ'.history).owner = some t ∧ σ'.mem .sequence = σ.mem .sequence ∧
      σ'.mem .sequence = σ'.mem .retired ∧ σ'.mem .operation = σ.mem .operation ∧
      σ'.mem .argument = σ.mem .argument := by
  obtain ⟨howner', hsequence, hpayload⟩ := h.kept.owner howner
  obtain ⟨hoperation, hargument⟩ := hpayload hfree
  refine ⟨howner', hsequence, ?_, hoperation, hargument⟩
  have := h.forward.retired
  have := hinv'.counters
  omega

/-- While the right to retire is held, the number stays pending. -/
theorem Later.pending_eq (h : Later t σ σ') (hinv : Consistent σ) (hinv' : Consistent σ')
    (hheld : (rights σ.history).pending.HeldBy t) :
    (rights σ'.history).pending = (rights σ.history).pending ∧
      σ'.mem .retired = σ.mem .retired ∧ σ'.mem .sequence = σ.mem .sequence := by
  obtain ⟨hpending, hretired⟩ := h.kept.pending hheld
  have hapart : σ.mem .sequence ≠ σ.mem .retired := by
    intro heq
    rw [hinv.counted.pending.mpr heq] at hheld
    exact hheld
  refine ⟨hpending, hretired, ?_⟩
  have := h.forward.sequence
  have := hinv'.counters
  have := hinv.counters
  omega

/-- While the right to answer is held, the number is taken and not answered. -/
theorem request_apart (hinv : Consistent σ) (hheld : (rights σ.history).request.HeldBy t) :
    σ.mem .retired = σ.mem .acknowledged ∧ σ.mem .taken = σ.mem .acknowledged + 1 ∧
      σ.mem .sequence = σ.mem .taken := by
  have hapart : σ.mem .acknowledged ≠ σ.mem .taken := by
    intro heq
    rw [hinv.counted.request.mpr heq] at hheld
    exact hheld
  have := hinv.counters
  omega

theorem Later.request_eq (h : Later t σ σ') (hinv : Consistent σ) (hinv' : Consistent σ')
    (hheld : (rights σ.history).request.HeldBy t) :
    (rights σ'.history).request = (rights σ.history).request ∧
      σ'.mem .taken = σ.mem .taken ∧ σ'.mem .sequence = σ.mem .sequence ∧
      σ'.mem .operation = σ.mem .operation ∧ σ'.mem .argument = σ.mem .argument ∧
      σ'.mem .result = σ.mem .result ∧ σ'.mem .failed = σ.mem .failed := by
  obtain ⟨hrequest, hacknowledged, hresult, hfailed⟩ := h.kept.request hheld
  have hnow := request_apart hinv hheld
  have hthen := request_apart hinv' (hrequest.symm ▸ hheld)
  obtain ⟨hoperation, hargument⟩ := h.forward.payload (by omega)
  exact ⟨hrequest, by omega, by omega, hoperation, hargument, hresult, hfailed⟩

end Rights

/-! ## The methods -/

variable {operation : Operation}

section Methods

variable {σ₀ : State Tid} {i : Cpu Tid}

/-- A `Pending` that has just been made. -/
structure Fresh (i : Cpu Tid) (pending : Pending) (σ : State Tid) : Prop where
  right : (rights σ.history).pending = .fresh i.tid
  sequence : pending.sequence = σ.mem .sequence
  completed : pending.completed = false
  own : .act i (.store .sequence pending.sequence) ∈ σ.history

theorem Fresh.later {σ σ' : State Tid} (h : Fresh i pending σ) (hinv : Consistent σ)
    (hinv' : Consistent σ') (hσ' : Later i.tid σ σ') : Fresh i pending σ' := by
  obtain ⟨hright, _, hsequence⟩ := hσ'.pending_eq hinv hinv' (h.right.symm ▸ rfl)
  exact ⟨hright.trans h.right, h.sequence.trans hsequence.symm, h.completed,
    hσ'.forward.suffix.subset h.own⟩

theorem publish_safe {argument : Nat} (hcall : i.call = .submit operation argument)
    (howner : (rights σ₀.history).owner = some i.tid) :
    (channelOutline Tid).Safe i (fun r σ => (rights σ.history).owner = some i.tid ∧
      ∀ pending, r = .ok pending → Fresh i pending σ) (publish operation argument) σ₀ := by
  refine .read channelOutline_silent fun σ₁ _ hσ₁ => ?_
  obtain ⟨howner₁, _⟩ := hσ₁.kept.owner howner
  refine .read channelOutline_silent fun σ₂ hinv₂ hσ₂ => ?_
  obtain ⟨howner₂, hsequence₂, _⟩ := hσ₂.kept.owner howner₁
  split
  · exact fun σ' _ hσ' => ⟨(hσ'.kept.owner howner₂).1, nofun⟩
  rename_i hretired
  have hfree₂ : σ₂.mem .sequence = σ₂.mem .retired := hsequence₂.trans (not_not.mp hretired).symm
  split
  swap
  · exact fun σ' _ hσ' => ⟨(hσ'.kept.owner howner₂).1, nofun⟩
  rename_i s hadd
  obtain ⟨_, rfl⟩ := Words.checkedAdd_eq_some.mp hadd
  rw [← hsequence₂]
  -- The operation, the argument and then the number, with the flag in hand.
  refine .store fun σ₃ hinv₃ hσ₃ => ?_
  obtain ⟨howner₃, hsequence₃, hfree₃, _, _⟩ := hσ₃.free hinv₃ howner₂ hfree₂
  have hdoes₃ := writePayload_does (i := i) hinv₃ howner₃ hfree₃ (Or.inl rfl) operation.toWord
  refine ⟨hdoes₃, .store fun σ₄ hinv₄ hσ₄ => ?_⟩
  obtain ⟨howner₄, hsequence₄, hfree₄, hoperation₄, _⟩ := hσ₄.free hinv₄ howner₃ hfree₃
  have hdoes₄ := writePayload_does (i := i) hinv₄ howner₄ hfree₄ (Or.inr rfl) argument
  refine ⟨hdoes₄, .store fun σ₅ hinv₅ hσ₅ => ?_⟩
  obtain ⟨howner₅, hsequence₅, hfree₅, hoperation₅, hargument₅⟩ := hσ₅.free hinv₅ howner₄ hfree₄
  have hsequence : σ₂.mem .sequence + 1 = σ₅.mem .sequence + 1 := by
    rw [hsequence₅, show (σ₄.acted i (.store .argument argument)).mem .sequence =
      σ₄.mem .sequence from rfl, hsequence₄, show (σ₃.acted i (.store .operation
      operation.toWord)).mem .sequence = σ₃.mem .sequence from rfl, hsequence₃]
  rw [hsequence]
  have hargument : σ₅.mem .argument = argument := hargument₅.trans (σ₄.acted_store_self i _ _)
  have hoperation : σ₅.mem .operation = operation.toWord := by
    rw [hoperation₅, show (σ₄.acted i (.store .argument argument)).mem .operation =
      σ₄.mem .operation from rfl, hoperation₄]
    exact σ₃.acted_store_self i _ _
  have hdoes₅ := publish_does (i := i) hinv₅ howner₅ hfree₅ (hargument.symm ▸ hcall) hoperation
  refine ⟨hdoes₅, fun σ' hinv' hσ' => ⟨(hσ'.kept.owner howner₅).1, ?_⟩⟩
  rintro pending ⟨⟩
  refine Fresh.later ⟨rfl, ?_, rfl, List.mem_cons_self⟩ hdoes₅.inv hinv' hσ'
  exact (σ₅.acted_store_self i _ _).symm

theorem submit_safe {argument : Nat} (hcall : i.call = .submit operation argument) :
    (channelOutline Tid).Safe i (fun r σ => ∀ pending, r = .ok pending → Fresh i pending σ)
      (submit operation argument) σ₀ := by
  refine .exchange channelOutline_silent (fun σ₁ hinv₁ _ hfree => ?_) fun _ _ _ _ _ _ _ => nofun
  have hdoes := claimWriter_does (i := i) hinv₁ hfree
  refine ⟨hdoes, .bind hdoes.inv (publish_safe hcall rfl) fun r σ₂ hinv₂ hpublished => ?_⟩
  obtain ⟨howner₂, hfresh₂⟩ := hpublished
  refine .store fun σ₃ hinv₃ hσ₃ => ?_
  have hdoes₃ := releaseWriter_does hinv₃ (hσ₃.kept.owner howner₂).1
  refine ⟨hdoes₃, fun σ' hinv' hσ' pending hok => ?_⟩
  have hfresh₃ := (hfresh₂ pending hok).later hinv₂ hinv₃ hσ₃
  have hfresh₃' : Fresh i pending (σ₃.acted i (.store .writer 0)) :=
    ⟨hfresh₃.right, hfresh₃.sequence, hfresh₃.completed, List.mem_cons_of_mem _ hfresh₃.own⟩
  exact hfresh₃'.later hdoes₃.inv hinv' hσ'

/-- A `Request` that has just been made. -/
structure Claimed (i : Cpu Tid) (request : Request) (σ : State Tid) : Prop where
  right : (rights σ.history).request = .fresh i.tid
  sequence : request.sequence = σ.mem .taken
  own : Submitted σ.history request.sequence request.operation request.argument

theorem Claimed.later {σ σ' : State Tid} (h : Claimed i request σ) (hinv : Consistent σ)
    (hinv' : Consistent σ') (hσ' : Later i.tid σ σ') :
    Claimed i request σ' := by
  obtain ⟨hright, htaken, _⟩ := hσ'.request_eq hinv hinv' (h.right.symm ▸ rfl)
  exact ⟨hright.trans h.right, h.sequence.trans htaken.symm, h.own.mono hσ'.forward.suffix⟩

theorem take_safe (htaking : σ₀.env.taking = some i.tid) :
    (channelOutline Tid).Safe i (fun r σ => σ.env.taking = some i.tid ∧
      ∃ result, r = .ok result ∧ ∀ request, result = some request → Claimed i request σ)
      take σ₀ := by
  refine .read channelOutline_silent fun σ₁ hinv₁ hσ₁ => ?_
  obtain ⟨htaking₁, _⟩ := hσ₁.kept.taking htaking
  refine .read channelOutline_silent fun σ₂ _ hσ₂ => ?_
  obtain ⟨htaking₂, htaken₂⟩ := hσ₂.kept.taking htaking₁
  split
  · exact fun σ' _ hσ' => ⟨(hσ'.kept.taking htaking₂).1, none, rfl, nofun⟩
  rename_i hnew
  refine .exchange channelOutline_silent (fun σ₃ hinv₃ hσ₃ htaken => ?_)
    fun σ₃ _ hσ₃ _ σ' _ hσ' => ?_
  swap
  · exact ⟨(hσ'.kept.taking (hσ₃.kept.taking htaking₂).1).1, none, rfl, nofun⟩
  -- The number loaded first is still the current one: the next needs this one to be taken.
  have := hinv₃.counters
  have hsequence₃ : σ₁.mem .sequence = σ₃.mem .sequence := by
    have := hσ₂.forward.sequence.trans hσ₃.forward.sequence
    have := hinv₁.counters
    omega
  have hahead : σ₃.mem .taken < σ₃.mem .sequence := by omega
  rw [hsequence₃, ← htaken]
  have hdoes₃ := claimRequest_does (i := i) hinv₃ (hσ₃.kept.taking htaking₂).1 hahead
  refine ⟨hdoes₃, .read channelOutline_silent fun σ₄ hinv₄ hσ₄ => ?_⟩
  obtain ⟨htaking₄, _⟩ := hσ₄.kept.taking (hσ₃.kept.taking htaking₂).1
  obtain ⟨hright₄, htaken₄, hsequence₄, _⟩ := hσ₄.request_eq hdoes₃.inv hinv₄ rfl
  have hheld₄ : (rights σ₄.history).request.HeldBy i.tid := hright₄.symm ▸ rfl
  have hapart₄ := request_apart hinv₄ hheld₄
  obtain ⟨operation, hoperation, hsubmitted⟩ := hinv₄.contents.payload (by omega)
  rw [hoperation, Operation.ofWord_toWord]
  refine .read channelOutline_silent fun σ₅ hinv₅ hσ₅ => ?_
  obtain ⟨_, _, _, _, hargument₅, _⟩ := hσ₅.request_eq hinv₄ hinv₅ hheld₄
  have hsequence : σ₃.mem .sequence = σ₄.mem .sequence := hsequence₄.symm
  have hclaimed : Claimed i ⟨σ₃.mem .sequence, operation, σ₅.mem .argument⟩ σ₄ := by
    refine ⟨hright₄, hsequence.trans hapart₄.2.2, ?_⟩
    rw [hargument₅, hsequence]
    exact hsubmitted
  refine fun σ' hinv' hσ' => ⟨(hσ'.kept.taking (hσ₅.kept.taking htaking₄).1).1, _, rfl, ?_⟩
  rintro request ⟨⟩
  exact (hclaimed.later hinv₄ hinv₅ hσ₅).later hinv₅ hinv' hσ'

/-- A `Pending` that is being polled. -/
structure Polling (i : Cpu Tid) (pending : Pending) (σ : State Tid) : Prop where
  right : (rights σ.history).pending = .used i.tid
  sequence : pending.sequence = σ.mem .sequence

theorem Polling.later {σ σ' : State Tid} (h : Polling i pending σ) (hinv : Consistent σ)
    (hinv' : Consistent σ') (hσ' : Later i.tid σ σ') :
    Polling i pending σ' := by
  obtain ⟨hright, _, hsequence⟩ := hσ'.pending_eq hinv hinv' (h.right.symm ▸ rfl)
  exact ⟨hright.trans h.right, h.sequence.trans hsequence.symm⟩

theorem tryResult_safe (hinv₀ : Consistent σ₀)
    (hpolling : pending.completed = false → Polling i pending σ₀) :
    (channelOutline Tid).Safe i (fun r σ =>
      (r.1.completed = false → r.1.sequence = pending.sequence ∧ Polling i pending σ) ∧
      ∀ reply, r.2 = .ok (some reply) → Acknowledged σ.history pending.sequence reply)
      (tryResult pending) σ₀ := by
  unfold tryResult
  split
  · rename_i hcompleted
    refine fun σ' _ _ => ⟨fun hopen => ?_, nofun⟩
    exact nomatch hcompleted.symm.trans hopen
  rename_i hopen
  have hpolling := hpolling (Bool.eq_false_iff.mpr hopen)
  refine .read channelOutline_silent fun σ₁ hinv₁ hσ₁ => ?_
  have hpolling₁ := hpolling.later hinv₀ hinv₁ hσ₁
  split
  · exact fun σ' hinv' hσ' => ⟨fun _ => ⟨rfl, hpolling₁.later hinv₁ hinv' hσ'⟩, nofun⟩
  rename_i hanswered
  have hanswered₁ : σ₁.mem .acknowledged = pending.sequence := not_not.mp hanswered
  -- From here on the number is answered and not retired, so the reply stays.
  have hstays : ∀ σ, Consistent σ → Later i.tid σ₁ σ → Polling i pending σ ∧
      σ.mem .acknowledged = σ.mem .sequence ∧ σ.mem .result = σ₁.mem .result ∧
      σ.mem .failed = σ₁.mem .failed := by
    intro σ hinv hσ
    obtain ⟨hright, hretired, hsequence⟩ := hσ.pending_eq hinv₁ hinv (hpolling₁.right.symm ▸ rfl)
    have hapart : σ₁.mem .retired < σ₁.mem .acknowledged := by
      have hne : σ₁.mem .sequence ≠ σ₁.mem .retired := fun heq =>
        nomatch hpolling₁.right.symm.trans (hinv₁.counted.pending.mpr heq)
      have := hinv₁.counters
      have := hpolling₁.sequence
      omega
    obtain ⟨hresult, hfailed⟩ := hσ.forward.reply (by omega)
    refine ⟨hpolling₁.later hinv₁ hinv hσ, ?_, hresult, hfailed⟩
    have := hσ.forward.acknowledged
    have := hinv.counters
    have := hpolling₁.sequence
    omega
  refine .read channelOutline_silent fun σ₂ hinv₂ hσ₂ => ?_
  refine .read channelOutline_silent fun σ₃ hinv₃ hσ₃ => ?_
  refine .store fun σ₄ hinv₄ hσ₄ => ?_
  obtain ⟨_, _, hresult₂, _⟩ := hstays σ₂ hinv₂ hσ₂
  have hσ₃' := hσ₂.trans hinv₂ hσ₃
  obtain ⟨_, _, _, hfailed₃⟩ := hstays σ₃ hinv₃ hσ₃'
  obtain ⟨hpolling₄, hanswered₄, hresult₄, hfailed₄⟩ := hstays σ₄ hinv₄ (hσ₃'.trans hinv₃ hσ₄)
  have hreply : Acknowledged σ₄.history pending.sequence
      ⟨σ₂.mem .result, σ₃.mem .failed != 0⟩ := by
    have hahead : σ₄.mem .retired < σ₄.mem .acknowledged := by
      have hne : σ₄.mem .sequence ≠ σ₄.mem .retired := fun heq =>
        nomatch hpolling₄.right.symm.trans (hinv₄.counted.pending.mpr heq)
      have := hinv₄.counters
      omega
    have hacknowledged := hinv₄.contents.reply hahead
    rw [hanswered₄, ← hpolling₄.sequence, hresult₄, ← hresult₂, hfailed₄, ← hfailed₃]
      at hacknowledged
    exact hacknowledged
  have hdoes : (channelOutline Tid).Does i σ₄ (.store .retired pending.sequence) := by
    rw [hpolling₄.sequence]
    exact retire_does hinv₄ hpolling₄.right hanswered₄
  refine ⟨hdoes, fun σ' _ hσ' => ⟨nofun, ?_⟩⟩
  rintro reply ⟨⟩
  exact (hreply.mono (List.suffix_cons _ _)).mono hσ'.forward.suffix

theorem acknowledge_safe {reply : Reply} (hcall : i.call = .acknowledge request reply)
    (hinv₀ : Consistent σ₀) (hright : (rights σ₀.history).request = .used i.tid)
    (hsequence : request.sequence = σ₀.mem .taken) (hdelivered : request ∈ deliveries σ₀.history) :
    (channelOutline Tid).Safe i (fun _ _ => True) (acknowledge request reply) σ₀ := by
  refine .store fun σ₁ hinv₁ hσ₁ => ?_
  obtain ⟨hright₁, htaken₁, _⟩ := hσ₁.request_eq hinv₀ hinv₁ (hright.symm ▸ rfl)
  have hdoes₁ := writeReply_does hinv₁ (hright₁.trans hright) (Or.inl rfl) reply.value
  refine ⟨hdoes₁, .store fun σ₂ hinv₂ hσ₂ => ?_⟩
  obtain ⟨hright₂, htaken₂, _, _, _, hresult₂, _⟩ :=
    hσ₂.request_eq hdoes₁.inv hinv₂ ((hright₁.trans hright).symm ▸ rfl)
  have hright₂ : (rights σ₂.history).request = .used i.tid := hright₂.trans (hright₁.trans hright)
  have hdoes₂ := writeReply_does hinv₂ hright₂ (Or.inr rfl) reply.failed.toNat
  refine ⟨hdoes₂, fun σ₃ hinv₃ hσ₃ => ?_⟩
  obtain ⟨hright₃, htaken₃, _, _, _, hresult₃, hfailed₃⟩ :=
    hσ₃.request_eq hdoes₂.inv hinv₃ (hright₂.symm ▸ rfl)
  have hresult : σ₃.mem .result = reply.value := by
    rw [hresult₃]
    exact hresult₂.trans (σ₁.acted_store_self i _ _)
  have hfailed : (σ₃.mem .failed != 0) = reply.failed := by
    rw [hfailed₃, σ₂.acted_store_self i]
    cases reply.failed <;> rfl
  refine ⟨acknowledge_does hinv₃ (hright₃.trans hright₂) ?_ ?_ ?_, fun _ _ _ => trivial⟩
  · rw [hresult, hfailed]
    exact hcall
  · rw [hsequence, htaken₃]
    exact (htaken₂.trans htaken₁).symm
  · have hsuffix := hσ₁.forward.suffix.trans ((List.suffix_cons _ _).trans (hσ₂.forward.suffix.trans
      ((List.suffix_cons _ _).trans hσ₃.forward.suffix)))
    exact (deliveries_suffix hsuffix).subset hdelivered

end Methods

/-! ## Starts -/

section Starts

variable {σ : State Tid} {i : Cpu Tid} {env : Client Tid}

/-- What a call has when it begins. -/
def Entitled (i : Cpu Tid) (σ : State Tid) : Prop :=
  match i.call with
  | .take => σ.env.taking = some i.tid
  | .tryResult pending => pending.completed = false → Polling i pending σ
  | .acknowledge request _ => (rights σ.history).request = .used i.tid ∧
      request.sequence = σ.mem .taken ∧ request ∈ deliveries σ.history
  | _ => True

theorem not_dropped (h : ∀ s, i.call ≠ .dropPending ⟨s, false⟩)
    (h' : ∀ request, i.call ≠ .dropRequest request) : ¬ Dropped [(.start i : Happening Tid)] := by
  rintro ⟨k, hmem, hcall⟩
  cases List.mem_singleton.mp hmem
  rcases hcall with ⟨s, hs⟩ | ⟨request, hrequest⟩
  · exact h s hs
  · exact h' request hrequest

/-- A call that takes nothing from the clients. -/
theorem start_plain (hinv : Consistent σ)
    (hnext : (rights σ.history).next (.start i) = rights σ.history)
    (h : ∀ s, i.call ≠ .dropPending ⟨s, false⟩) (h' : ∀ request, i.call ≠ .dropRequest request)
    (hpendings : env.pendings = σ.env.pendings) (hrequests : env.requests = σ.env.requests)
    (htaking : ∀ t', t' ≠ i.tid → σ.env.taking = some t' → env.taking = some t') :
    (channelOutline Tid).Good i.tid σ (.start i) (σ.started i env) :=
  good_plain hinv hnext (fun j _ => Event.start_ne_act i j _) rfl trivial
    (fun _ _ => not_dropped h h') hpendings hrequests htaking

/-- What the start of a call that uses or drops a `Pending` does. -/
theorem start_pending (hinv : Consistent σ) {s : Nat} {r : Right Tid} (hmem : s ∈ σ.env.pendings)
    (hnext : (rights σ.history).next (.start i) = { rights σ.history with pending := r })
    (hfree : r ≠ .free) (hidle : r ≠ .idle)
    (hdropped : ¬ Dropped [(.start i : Happening Tid)] ∨ r = .lost) :
    (channelOutline Tid).Good i.tid σ (.start i)
      (σ.started i { σ.env with pendings := σ.env.pendings.erase s }) := by
  obtain ⟨hright, _, herase⟩ := hinv.tokens.of_mem_pendings hmem
  rw [herase]
  refine good_event hinv hnext rfl (.of_idle hright hfree) .refl (fun _ _ => id)
    (hinv.tokens.movePending (fun h => absurd h hidle) fun _ => rfl) ?_
  rcases hdropped with hstart | hlost
  · exact hinv.records.event (fun j _ => Event.start_ne_act i j _) rfl (fun _ => id) trivial
      (fun _ _ => hstart) (fun h => nomatch hright.symm.trans h) id
  · exact hinv.records.drop (Or.inl hlost) fun _ => id

/-- The same for a `Request`. -/
theorem start_request (hinv : Consistent σ) {r : Right Tid} (hmem : request ∈ σ.env.requests)
    (hnext : (rights σ.history).next (.start i) = { rights σ.history with request := r })
    (hfree : r ≠ .free) (hidle : r ≠ .idle) (hfresh : ∀ t, r ≠ .fresh t)
    (hdropped : ¬ Dropped [(.start i : Happening Tid)] ∨ r = .lost) :
    (channelOutline Tid).Good i.tid σ (.start i)
      (σ.started i { σ.env with requests := σ.env.requests.erase request }) := by
  obtain ⟨hright, _, _, herase⟩ := hinv.tokens.of_mem_requests hmem
  rw [herase]
  refine good_event hinv hnext rfl .refl (.of_idle hright hfree) (fun _ _ => id)
    (hinv.tokens.moveRequest (fun h => absurd h hidle) fun _ => rfl) ?_
  rcases hdropped with hstart | hlost
  · exact hinv.records.event (fun j _ => Event.start_ne_act i j _) rfl
      (fun t h => absurd h (hfresh t)) trivial (fun _ _ => hstart) id
      fun h => nomatch hright.symm.trans h
  · exact hinv.records.drop (Or.inr hlost) fun t h => absurd h (hfresh t)

theorem withoutPending_cases {client client' : Client Tid}
    (h : client.withoutPending pending = some client') :
    (pending.completed = true ∧ client' = client) ∨
      (pending.completed = false ∧ pending.sequence ∈ client.pendings ∧
        client' = { client with pendings := client.pendings.erase pending.sequence }) := by
  unfold Client.withoutPending at h
  split at h
  · rename_i hcompleted
    exact Or.inl ⟨hcompleted, (Option.some.inj h).symm⟩
  · rename_i hopen
    split at h
    · rename_i hmem
      exact Or.inr ⟨Bool.eq_false_iff.mpr hopen, hmem, (Option.some.inj h).symm⟩
    · cases h

theorem withoutRequest_cases {client client' : Client Tid}
    (h : client.withoutRequest request = some client') :
    request ∈ client.requests ∧
      client' = { client with requests := client.requests.erase request } := by
  unfold Client.withoutRequest at h
  split at h
  · rename_i hmem
    exact ⟨hmem, (Option.some.inj h).symm⟩
  · cases h

theorem start_good (hinv : Consistent σ)
    (hstart : (channel Tid).start σ.env i.tid i.call = some env) :
    (channelOutline Tid).Good i.tid σ (.start i) (σ.started i env) ∧
      Entitled i (σ.started i env) := by
  obtain ⟨t, number, call, entry⟩ := i
  cases call with
  | submit operation argument | completedCount =>
    cases hstart
    exact ⟨start_plain hinv rfl nofun nofun rfl rfl fun _ _ => id, trivial⟩
  | take =>
    have hnone : σ.env.taking = none ∧ env = { σ.env with taking := some t } := by
      cases htaking : σ.env.taking with
      | none =>
        simp only [channel, htaking] at hstart
        exact ⟨rfl, (Option.some.inj hstart).symm⟩
      | some t' => simp [channel, htaking] at hstart
    obtain ⟨htaking, rfl⟩ := hnone
    refine ⟨start_plain hinv rfl nofun nofun rfl rfl fun t' _ h => ?_, rfl⟩
    exact nomatch htaking.symm.trans h
  | tryResult pending =>
    obtain ⟨s, completed⟩ := pending
    rcases withoutPending_cases hstart with ⟨rfl, rfl⟩ | ⟨rfl, hmem, rfl⟩
    · exact ⟨start_plain hinv rfl nofun nofun rfl rfl fun _ _ => id, nofun⟩
    · refine ⟨start_pending hinv hmem rfl nofun nofun (Or.inl (not_dropped nofun nofun)), ?_⟩
      exact fun _ => ⟨rfl, (hinv.tokens.of_mem_pendings hmem).2.1⟩
  | dropPending pending =>
    obtain ⟨s, completed⟩ := pending
    rcases withoutPending_cases hstart with ⟨rfl, rfl⟩ | ⟨rfl, hmem, rfl⟩
    · exact ⟨start_plain hinv rfl nofun nofun rfl rfl fun _ _ => id, trivial⟩
    · exact ⟨start_pending hinv hmem rfl nofun nofun (Or.inr rfl), trivial⟩
  | acknowledge request reply =>
    obtain ⟨hmem, rfl⟩ := withoutRequest_cases hstart
    obtain ⟨_, hsequence, hdelivered, _⟩ := hinv.tokens.of_mem_requests hmem
    refine ⟨start_request hinv hmem rfl nofun nofun nofun
      (Or.inl (not_dropped nofun nofun)), rfl, hsequence, ?_⟩
    exact (deliveries_suffix (List.suffix_cons _ _)).subset hdelivered
  | dropRequest request =>
    obtain ⟨hmem, rfl⟩ := withoutRequest_cases hstart
    exact ⟨start_request hinv hmem rfl nofun nofun nofun (Or.inr rfl), trivial⟩

end Starts

/-! ## Returns -/

variable {r : Outcome}

section Returns

variable {σ σ₀ : State Tid} {i : Cpu Tid}

/-- What a call has when it ends. -/
inductive Owed (i : Cpu Tid) (σ : State Tid) : Outcome → Prop where
  | submitted {operation argument} {r : Except Error Pending}
      (hcall : i.call = .submit operation argument)
      (h : ∀ pending, r = .ok pending → Fresh i pending σ) : Owed i σ (.submitted r)
  | count {n : Nat} (hcall : i.call = .completedCount) : Owed i σ (.count n)
  | taken {result : Option Request} (hcall : i.call = .take) (htaking : σ.env.taking = some i.tid)
      (h : ∀ request, result = some request → Claimed i request σ) : Owed i σ (.taken (.ok result))
  | polled {pending pending' : Pending} {r : Except Error (Option Reply)}
      (hcall : i.call = .tryResult pending)
      (h : pending'.completed = false → pending'.sequence = pending.sequence ∧ Polling i pending σ)
      (hreply : ∀ reply, r = .ok (some reply) → Acknowledged σ.history pending.sequence reply) :
      Owed i σ (.polled pending' r)
  | done (hcall : (∃ request reply, i.call = .acknowledge request reply) ∨
      (∃ pending, i.call = .dropPending pending) ∨ ∃ request, i.call = .dropRequest request) :
      Owed i σ .done

theorem code_owed (hinv₀ : Consistent σ₀) (hentitled : Entitled i σ₀) :
    (channelOutline Tid).Safe i (fun r σ => Owed i σ r) (code i.call) σ₀ := by
  unfold Entitled at hentitled
  cases hcall : i.call <;> rw [hcall] at hentitled
  case submit operation argument =>
    refine .bind hinv₀ (submit_safe hcall) fun r σ hinv h σ' hinv' hσ' => .submitted hcall ?_
    exact fun pending hok => (h pending hok).later hinv hinv' hσ'
  case completedCount =>
    exact .read channelOutline_silent fun σ _ _ σ' _ _ => .count hcall
  case take =>
    refine .bind hinv₀ (take_safe hentitled) fun r σ hinv h σ' hinv' hσ' => ?_
    obtain ⟨htaking, result, rfl, hclaimed⟩ := h
    refine .taken hcall (hσ'.kept.taking htaking).1 fun request hsome => ?_
    exact (hclaimed request hsome).later hinv hinv' hσ'
  case tryResult pending =>
    refine .bind hinv₀ (tryResult_safe hinv₀ hentitled) fun r σ hinv h σ' hinv' hσ' => ?_
    obtain ⟨hpolling, hreply⟩ := h
    refine .polled hcall (fun hopen => ?_) fun reply hok => ?_
    · obtain ⟨hsequence, hpolling⟩ := hpolling hopen
      exact ⟨hsequence, hpolling.later hinv hinv' hσ'⟩
    · exact (hreply reply hok).mono hσ'.forward.suffix
  case acknowledge request reply =>
    obtain ⟨hright, hsequence, hdelivered⟩ := hentitled
    refine .bind hinv₀ (acknowledge_safe hcall hinv₀ hright hsequence hdelivered) ?_
    exact fun _ _ _ _ _ _ _ => .done (Or.inl ⟨request, reply, hcall⟩)
  case dropPending pending => exact fun _ _ _ => .done (Or.inr (Or.inl ⟨pending, hcall⟩))
  case dropRequest request => exact fun _ _ _ => .done (Or.inr (Or.inr ⟨request, hcall⟩))

/-- A return that gives nothing to the clients. -/
theorem return_plain {env : Client Tid} (hinv : Consistent σ)
    (hnext : (rights σ.history).next (.ret i r) = rights σ.history)
    (hdelivery : delivery (.ret i r) = none) (hhonest : Honest (.ret i r :: σ.history) (.ret i r))
    (hpendings : env.pendings = σ.env.pendings) (hrequests : env.requests = σ.env.requests)
    (htaking : ∀ t', t' ≠ i.tid → σ.env.taking = some t' → env.taking = some t') :
    (channelOutline Tid).Good i.tid σ (.ret i r) (σ.returned i r env) :=
  good_plain hinv hnext (fun j _ => Event.ret_ne_act i j r _) hdelivery hhonest nofun hpendings
    hrequests htaking

/-- A return that gives the right to retire back to the clients. -/
theorem return_pending (hinv : Consistent σ)
    (hnext : (rights σ.history).next (.ret i r) = { rights σ.history with pending := .idle })
    (hdelivery : delivery (.ret i r) = none) (hhonest : Honest (.ret i r :: σ.history) (.ret i r))
    (hopen : pending.completed = false) (hsequence : pending.sequence = σ.mem .sequence)
    (hright : (rights σ.history).pending = .fresh i.tid ∨
      (rights σ.history).pending = .used i.tid) :
    (channelOutline Tid).Good i.tid σ (.ret i r) (σ.returned i r (σ.env.withPending pending)) := by
  have hnot : (rights σ.history).pending ≠ .idle := by
    rcases hright with h | h <;> rw [h] <;> nofun
  have henv : σ.env.withPending pending = { σ.env with pendings := [σ.mem .sequence] } := by
    unfold Client.withPending
    rw [hopen, hsequence, hinv.tokens.noPendings hnot]
    rfl
  rw [henv]
  refine good_event hinv hnext rfl (.to_idle hright) .refl (fun _ _ => id)
    (hinv.tokens.movePending (fun _ => rfl) fun h => absurd rfl h) ?_
  refine hinv.records.event (fun j _ => Event.ret_ne_act i j r _) hdelivery (fun _ => id) hhonest
    nofun (fun hlost => ?_) id
  rw [hlost] at hright
  rcases hright with h | h <;> cases h

/-- A request goes to the receiver. -/
theorem return_request (hinv : Consistent σ) (h : Claimed i request σ)
    (htaking : σ.env.taking = some i.tid) :
    (channelOutline Tid).Good i.tid σ (.ret i (.taken (.ok (some request))))
      (σ.returned i (.taken (.ok (some request)))
        { σ.env with taking := none, requests := request :: σ.env.requests }) := by
  have hnone : σ.env.requests = [] := by
    refine hinv.tokens.noRequests ?_
    rw [h.right]
    nofun
  rw [hnone]
  refine good_event hinv rfl rfl .refl (.to_idle (Or.inl h.right)) ?_ ?_ ?_
  · exact fun t' hne ht' => absurd (Option.some.inj (ht'.symm.trans htaking)) hne
  · refine hinv.tokens.moveRequest (fun _ => ⟨request, ?_, rfl, h.sequence⟩)
      fun hnot => absurd rfl hnot
    exact List.mem_filterMap.mpr ⟨_, List.mem_cons_self, rfl⟩
  · exact hinv.records.deliver h.right rfl h.sequence h.own

theorem returns_of_owed (hinv : Consistent σ) (h : Owed i σ r) :
    (channelOutline Tid).Returns (channel Tid) i r σ := by
  unfold Outline.Returns
  cases h with
  | @submitted operation argument r hcall h =>
    rw [hcall]
    cases r with
    | error e => exact return_plain hinv rfl rfl trivial rfl rfl fun _ _ => id
    | ok pending =>
      have hfresh := h pending rfl
      refine return_pending hinv rfl rfl ?_ hfresh.completed hfresh.sequence (Or.inl hfresh.right)
      exact List.mem_cons_of_mem _ hfresh.own
  | count hcall =>
    rw [hcall]
    exact return_plain hinv rfl rfl trivial rfl rfl fun _ _ => id
  | @taken result hcall htaking h =>
    rw [hcall]
    cases result with
    | none =>
      refine return_plain hinv rfl rfl trivial rfl rfl fun t' hne ht' => ?_
      exact absurd (Option.some.inj (ht'.symm.trans htaking)) hne
    | some request => exact return_request hinv (h request rfl) htaking
  | @polled pending pending' r hcall h hreply =>
    have hhonest : Honest (.ret i (.polled pending' r) :: σ.history)
        (.ret i (.polled pending' r)) := by
      rcases r with e | _ | reply
      · trivial
      · trivial
      · intro pending'' hcall'
        cases hcall.symm.trans hcall'
        exact (hreply reply rfl).mono (List.suffix_cons _ _)
    rw [hcall]
    obtain ⟨s, completed⟩ := pending'
    cases completed with
    | true => exact return_plain hinv rfl rfl hhonest rfl rfl fun _ _ => id
    | false =>
      obtain ⟨hsequence, hpolling⟩ := h rfl
      exact return_pending hinv rfl rfl hhonest rfl (hsequence.trans hpolling.sequence)
        (Or.inr hpolling.right)
  | done hcall =>
    have hfinish : (channel Tid).finish σ.env i.tid i.call .done = σ.env := by
      rcases hcall with ⟨_, _, h⟩ | ⟨_, h⟩ | ⟨_, h⟩ <;> rw [h] <;> rfl
    rw [hfinish]
    exact return_plain hinv rfl rfl trivial rfl rfl fun _ _ => id

end Returns

/-! ## The channel -/

theorem channelOutline_proves : (channelOutline Tid).Proves (channel Tid) := by
  intro σ t call env hinv hstart
  obtain ⟨hgood, hentitled⟩ := start_good (i := σ.invoke t call) hinv hstart
  refine ⟨hgood, (code_owed (i := σ.invoke t call) hgood.inv hentitled).post ?_⟩
  exact fun r σ' hinv' howed => returns_of_owed hinv' howed

theorem numbered_nil (c : Cell) (bound : Nat) : Numbered c bound ([] : History Tid) where
  le _ _ hmem := absurd hmem List.not_mem_nil
  once _ _ _ hmem := absurd hmem List.not_mem_nil

/-- Nothing has been recorded before the first event. -/
theorem records_nil (m : Memory) (g : Rights Tid) : Records m g ([] : History Tid) where
  sequences := numbered_nil _ _
  acknowledgements := numbered_nil _ _
  delivered _ hmem := absurd hmem List.not_mem_nil
  fresh _ _ _ hmem := absurd hmem List.not_mem_nil
  once := List.nodup_nil
  honest _ hmem := absurd hmem List.not_mem_nil
  dropped hdropped := by
    obtain ⟨_, hmem, _⟩ := hdropped
    exact absurd hmem List.not_mem_nil
  last _ _ _ hsuffix := absurd (List.suffix_nil.mp hsuffix) (List.cons_ne_nil _ _)

theorem consistent_initial : Consistent (initial Tid) := by
  refine ⟨⟨Nat.le_refl 0, Nat.le_refl 0, Nat.le_refl 0, Nat.zero_le 1, ?_, ?_, ?_⟩,
    ⟨nofun, fun _ => rfl, nofun, fun _ => rfl⟩,
    ⟨fun h => absurd h (Nat.lt_irrefl 0), fun h => absurd h (Nat.lt_irrefl 0)⟩,
    records_nil _ _⟩
  all_goals exact ⟨fun _ => rfl, fun _ => rfl⟩

/-- The guarantee of the channel. A submitted request is known by its number: `submitted_own` and
`submitted_once` tell which call it belongs to. -/
structure ExactlyOnce (σ : State Tid) : Prop where
  retired_le : σ.mem .retired ≤ σ.mem .acknowledged
  acknowledged_le : σ.mem .acknowledged ≤ σ.mem .taken
  taken_le : σ.mem .taken ≤ σ.mem .sequence
  sequence_le : σ.mem .sequence ≤ σ.mem .retired + 1
  submitted_own : ∀ i pending, .ret i (.submitted (.ok pending)) ∈ σ.history →
    .act i (.store .sequence pending.sequence) ∈ σ.history
  submitted_once : ∀ i j s, .act i (.store .sequence s) ∈ σ.history →
    .act j (.store .sequence s) ∈ σ.history → i = j
  taken_once : ((deliveries σ.history).map Request.sequence).Nodup
  taken_own : ∀ request ∈ deliveries σ.history,
    Submitted σ.history request.sequence request.operation request.argument
  taken_ok : ∀ i e, .ret i (.taken (.error e)) ∉ σ.history
  replied_own : ∀ i pending pending' reply, i.call = .tryResult pending →
    .ret i (.polled pending' (.ok (some reply))) ∈ σ.history →
    Acknowledged σ.history pending.sequence reply
  acknowledged_once : ∀ i j s, .act i (.store .acknowledged s) ∈ σ.history →
    .act j (.store .acknowledged s) ∈ σ.history → i = j
  /-- A `submit` that begins after a drop does not succeed. -/
  dropped : ∀ i older, .start i :: older <:+ σ.history → Dropped older →
    ∀ pending, .ret i (.submitted (.ok pending)) ∉ σ.history

theorem mem_deliveries {history : History Tid} (h : request ∈ deliveries history) :
    ∃ i, .ret i (.taken (.ok (some request))) ∈ history := by
  obtain ⟨ev, hev, hdelivery⟩ := List.mem_filterMap.mp h
  unfold delivery at hdelivery
  split at hdelivery
  · cases hdelivery
    exact ⟨_, hev⟩
  · cases hdelivery

/-- Every interleaving of any submitters, pollers and droppers with one receiver delivers exactly
once: the counters are in order, a request is taken at most once and with the operation and argument
of its own `submit`, a reply that a `Pending` obtains was given to its own request, and nothing is
submitted any more when something has been dropped. -/
theorem channel_exactlyOnce {c : Config (fun _ : Cell => Nat) Tid Call Outcome (Client Tid)}
    [DecidableEq Tid] (hreach : Reach (channel Tid) (initial Tid) c) : ExactlyOnce c.shared := by
  obtain ⟨hcounted, _, _, hrecords⟩ : Consistent c.shared :=
    (Outline.sound channelOutline_proves consistent_initial hreach).inv
  have htraced : Traced (fun _ _ _ => True) (fun _ _ _ => True) c.shared.history :=
    traced (fun _ => (Prog.Forall.any _).along) hreach
  have hown : ∀ i pending, .ret i (.submitted (.ok pending)) ∈ c.shared.history →
      .act i (.store .sequence pending.sequence) ∈ c.shared.history :=
    fun i pending hmem => hrecords.honest _ hmem
  refine ⟨hcounted.retired_le, hcounted.acknowledged_le, hcounted.taken_le, hcounted.sequence_le,
    hown, hrecords.sequences.once, hrecords.once, ?_, ?_, ?_, hrecords.acknowledgements.once, ?_⟩
  · intro request hmem
    obtain ⟨i, hret⟩ := mem_deliveries hmem
    exact hrecords.honest _ hret
  · exact fun i e hmem => hrecords.honest _ hmem
  · exact fun i pending pending' reply hcall hmem => hrecords.honest _ hmem pending hcall
  · -- The number would have been published after the start, and so after the drop.
    intro i older hstart hdropped pending hmem
    obtain ⟨older', hact⟩ := suffix_of_mem (hown i pending hmem)
    exact hrecords.last i _ older' hact (hdropped.mono (htraced.after_start hstart hact))

/-- CPU 0 submits a ping, CPU 1 takes and answers it, and CPU 0 obtains the reply; then CPU 0
submits once more and drops the `Pending`. -/
def pingOnce : List (Move Nat Call) :=
  List.flatten [.start 0 (.submit .ping 7) :: List.replicate 8 (.next 0),
    .start 1 .take :: List.replicate 6 (.next 1),
    .start 1 (.acknowledge ⟨1, .ping, 7⟩ ⟨70, false⟩) :: List.replicate 4 (.next 1),
    .start 0 (.tryResult ⟨1, false⟩) :: List.replicate 5 (.next 0),
    .start 0 (.submit .park 0) :: List.replicate 8 (.next 0),
    .start 0 (.dropPending ⟨2, false⟩) :: List.replicate 1 (.next 0)]

theorem channel_exactlyOnce_pingOnce :
    ∃ c, Config.run (channel Nat) ⟨initial Nat, fun _ => none⟩ pingOnce = some c ∧
      deliveries c.shared.history = [⟨1, .ping, 7⟩] ∧ c.shared.mem .retired = 1 ∧
      c.shared.mem .sequence = 2 ∧ ExactlyOnce c.shared := by
  have hlast : ((Config.run (channel Nat) ⟨initial Nat, fun _ => none⟩ pingOnce).map fun c =>
      (deliveries c.shared.history, c.shared.mem .retired, c.shared.mem .sequence)) =
      some ([⟨1, .ping, 7⟩], 1, 2) := by
    decide +kernel
  obtain ⟨c, hrun, hc⟩ := Option.map_eq_some_iff.mp hlast
  obtain ⟨hdeliveries, hretired, hsequence⟩ : deliveries c.shared.history = [⟨1, .ping, 7⟩] ∧
      c.shared.mem .retired = 1 ∧ c.shared.mem .sequence = 2 := by
    simpa using hc
  exact ⟨c, hrun, hdeliveries, hretired, hsequence, channel_exactlyOnce (Config.run_steps hrun)⟩

end Tvisor.Management
