import Kademlia.Framing
import Kademlia.Pending

/-!
# Calls over datagrams

Any number of calls share one socket. Each draws an id for itself, registers it
for the peer it calls, sends its datagram, and waits; without a reply in time
it sends again, a few times, and then gives up. One loop receives for all of
them. It hands what is marked as a reply to whoever waits for the id, if the
peer is the one called, and everything else to whoever answers requests.

A call is a machine that takes one step at a time (`Call.advance`), and so does
the loop. The state of a transport is what they share, and its events come in
any order: which call moves on, what arrives and from where. Loss, delay,
duplication and forgery are event sequences like any other. An event that
cannot happen in a state changes nothing.

The loop takes a slot out of the pool and sends into it in two steps, and the
calls move on in between. A call leaves in two steps as well: what it returns
is fixed before its response is dropped.

Two things are proved of every run. What a call returns as a reply arrived for
it (`replies_match`), which is a statement about the past of a state and so is
carried along as a trace. And no call is told that there will be no reply as
long as the calls under way have different ids (`quiet_run`), which is the
condition under which the pool loses no slot.
-/

namespace Kademlia

/-- How many times a request is sent. -/
def maxAttempts : ℕ := 5

/-- How a call ends. -/
inductive Outcome where
  /-- With this reply. -/
  | ok (reply : List UInt8)
  /-- No reply after the last attempt. -/
  | timedOut
  /-- The datagram could not be sent. -/
  | sendError
  /-- The caller no longer waits. -/
  | cancelled
  /-- It was told that there will be no reply. -/
  | panicked
deriving DecidableEq

/-- Where a call is. -/
inductive Call.Phase where
  /-- It has no id yet. -/
  | drawing
  /-- It is about to send, for the time after this many. -/
  | sending (attempt : ℕ)
  /-- It waits, having sent once more than this. -/
  | waiting (attempt : ℕ)
  /-- Its outcome is fixed, and its response is still there. -/
  | leaving (outcome : Outcome)
  /-- It is over. -/
  | ended (outcome : Outcome)
deriving DecidableEq

/-- The outcome, once fixed. -/
def Call.Phase.outcome : Call.Phase → Option Outcome
  | .leaving outcome | .ended outcome => some outcome
  | _ => none

/-- A call to a peer. -/
structure Call where
  /-- Whom it calls. -/
  address : SocketAddr
  /-- What it sends. -/
  payload : List UInt8
  /-- The response it waits for, from when its id is registered. -/
  response : Option PendingResponse
  /-- Where it is. -/
  phase : Call.Phase
deriving DecidableEq

/-- What a call may do next, and what decides it. -/
inductive Progress where
  /-- An id is drawn. -/
  | draw (random : UInt64)
  /-- The datagram is handed to the socket, which takes it or does not. -/
  | send (taken : Bool)
  /-- The response is looked at. -/
  | poll
  /-- The time to wait is over. -/
  | timeout
  /-- The caller gives the call up. -/
  | cancel
  /-- The response is dropped on the way out. -/
  | drop

namespace Call

/-- A call that has just begun. -/
def new (address : SocketAddr) (payload : List UInt8) : Call :=
  ⟨address, payload, none, .drawing⟩

/-- One step of a call, with what it leaves in the pool. -/
def advance (call : Call) (pending : Pending) : Progress → Call × Pending
  | .draw random =>
    if call.phase = .drawing then
      match pending.register (requestId random) call.address with
      -- in use: another one is drawn
      | (none, pending) => (call, pending)
      | (some response, pending) =>
        ({ call with response := some response, phase := .sending 0 }, pending)
    else (call, pending)
  | .send taken =>
    match call.phase with
    | .sending attempt =>
      ({ call with phase := if taken then .waiting attempt else .leaving .sendError }, pending)
    | _ => (call, pending)
  | .poll =>
    match call.phase, call.response.bind pending.poll with
    | .waiting _, some (some reply) => ({ call with phase := .leaving (.ok reply) }, pending)
    | .waiting _, some none => ({ call with phase := .leaving .panicked }, pending)
    | _, _ => (call, pending)
  | .timeout =>
    match call.phase with
    | .waiting attempt =>
      ({ call with phase :=
          if attempt + 1 < maxAttempts then .sending (attempt + 1) else .leaving .timedOut },
        pending)
    | _ => (call, pending)
  | .cancel =>
    match call.phase with
    | .leaving _ | .ended _ => (call, pending)
    | _ => ({ call with phase := .leaving .cancelled }, pending)
  | .drop =>
    match call.phase with
    | .leaving outcome =>
      ({ call with phase := .ended outcome }, call.response.elim pending pending.drop)
    | _ => (call, pending)

/-- The datagram a step of a call sends. -/
def datagram (call : Call) : Progress → Option (SocketAddr × List UInt8)
  | .send true =>
    match call.phase with
    | .sending _ => call.response.map (fun r => (call.address, frameRequest r.id call.payload))
    | _ => none
  | _ => none

/-- A call is under way until its response is dropped. -/
def Live (call : Call) : Prop := ∀ outcome, call.phase ≠ .ended outcome

end Call

/-- Where the receive loop is. -/
inductive Receiving where
  /-- It waits for a datagram. -/
  | idle
  /-- It took a slot out of the pool and is about to send the reply. -/
  | delivering (tx : ℕ) (payload : List UInt8)
  /-- The socket is dead. -/
  | stopped
deriving DecidableEq

/-- The sender the receive loop has in hand. -/
def Receiving.taken : Receiving → Option ℕ
  | .delivering tx _ => some tx
  | _ => none

/-- The queue of requests from others. -/
structure Requests where
  /-- How many there is room for. -/
  capacity : ℕ
  /-- The requests, oldest first. -/
  queue : List HandleRpc.Request
  /-- Whether anyone still reads them. -/
  isOpen : Bool
deriving DecidableEq

/-- Put a request into the queue, unless it is full or nobody reads it. -/
def Requests.trySend (requests : Requests) (request : HandleRpc.Request) : Requests :=
  if requests.isOpen ∧ requests.queue.length < requests.capacity
  then { requests with queue := requests.queue ++ [request] }
  else requests

/-- **The state of a transport.** -/
structure Transport where
  /-- The requests that wait for a reply. -/
  pending : Pending
  /-- The calls made so far. -/
  calls : List Call
  /-- The receive loop. -/
  receiving : Receiving
  /-- The requests from others, if they are served. -/
  requests : Option Requests
  /-- What was sent so far. -/
  sent : List (SocketAddr × List UInt8)

namespace Transport

/-- What may happen next. -/
inductive Event where
  /-- A call is made. -/
  | call (address : SocketAddr) (payload : List UInt8)
  /-- A call moves on. -/
  | advance (i : ℕ) (progress : Progress)
  /-- A datagram arrives. -/
  | receive (source : SocketAddr) (datagram : List UInt8)
  /-- The receive loop sends the reply into the slot it took. -/
  | hand
  /-- The socket dies. -/
  | stop
  /-- Whoever serves the requests takes the oldest. -/
  | serve
  /-- Whoever serves the requests goes away. -/
  | close

/-- A new transport. -/
def build (requests : Option Requests) : Transport :=
  ⟨Pending.new, [], .idle, requests, []⟩

/-- Receive a datagram. -/
def receive (s : Transport) (source : SocketAddr) (datagram : List UInt8) : Transport :=
  match inbound source datagram with
  | .dropped => s
  | .request request => { s with requests := s.requests.map (·.trySend request) }
  | .reply id payload =>
    match s.pending.take id source with
    | (none, pending) => { s with pending := pending }
    | (some slot, pending) =>
      { s with pending := pending, receiving := .delivering slot.tx payload }

/-- What one event leaves. -/
def step (s : Transport) : Event → Transport
  | .call address payload => { s with calls := s.calls ++ [Call.new address payload] }
  | .advance i progress =>
    match s.calls[i]? with
    | none => s
    | some call =>
      let (next, pending) := call.advance s.pending progress
      { s with
        pending := pending
        calls := s.calls.set i next
        sent := s.sent ++ (call.datagram progress).toList }
  | .receive source datagram =>
    if s.receiving = .idle then s.receive source datagram else s
  | .hand =>
    match s.receiving with
    | .delivering tx payload =>
      { s with pending := (s.pending.send tx payload).2, receiving := .idle }
    | _ => s
  | .stop => if s.receiving = .idle then { s with receiving := .stopped } else s
  | .serve => { s with requests := s.requests.map (fun r => { r with queue := r.queue.tail }) }
  | .close => { s with requests := s.requests.map (fun r => { r with isOpen := false }) }

/-- What a sequence of events leaves. -/
def run (requests : Option Requests) (events : List Event) : Transport :=
  events.foldl step (build requests)

end Transport

/-! ## One step of a call

What a step can do, guards included, is said once. Later proofs follow these
four cases and do not unfold the machine. -/

namespace Call

/-- What a step of a call can do. -/
inductive Advances (call : Call) (pending : Pending) : Call → Pending → Prop where
  /-- Nothing. -/
  | stay : Advances call pending call pending
  /-- Register an id that is free. -/
  | register (id : UInt64) (hphase : call.phase = .drawing) (hid : isReply id = false)
      (hfree : pending.slots id = none) :
      Advances call pending
        { call with response := some ⟨id, pending.channels.length⟩, phase := .sending 0 }
        (pending.register id call.address).2
  /-- Move on, return a reply only if there is one, and panic only if there will be
  none. -/
  | move (phase : Phase) (hlive : call.Live) (hnot : phase ≠ .drawing)
      (hgoes : ∀ outcome, phase ≠ .ended outcome)
      (hok : ∀ reply, phase.outcome = some (.ok reply) →
        ∃ r, call.response = some r ∧ pending.poll r = some (some reply))
      (hpanic : phase.outcome = some .panicked →
        ∃ r, call.response = some r ∧ pending.poll r = some none) :
      Advances call pending { call with phase := phase } pending
  /-- Drop the response. -/
  | leave (outcome : Outcome) (hphase : call.phase = .leaving outcome) :
      Advances call pending { call with phase := .ended outcome }
        (call.response.elim pending pending.drop)

theorem live_of_phase {call : Call} {phase : Phase} (h : call.phase = phase)
    (hnot : ∀ outcome, phase ≠ .ended outcome) : call.Live :=
  fun outcome he => hnot outcome (h.symm.trans he)

/-- **A step of a call does one of these.** An event that does not fit the
phase of the call leaves it as it is, so the other cases may assume the
phase. -/
theorem advances (call : Call) (pending : Pending) (progress : Progress) :
    call.Advances pending (call.advance pending progress).1 (call.advance pending progress).2 := by
  cases progress with
  | draw random =>
    unfold advance
    dsimp only
    split
    · next hphase =>
      cases hs : pending.slots (requestId random) with
      | none =>
        have h : call.Advances pending _ _ :=
          .register (requestId random) hphase (isReply_requestId random) hs
        rw [Pending.register_of_free hs] at h ⊢
        exact h
      | some slot =>
        unfold Pending.register
        rw [hs]
        exact .stay
    · exact .stay
  | send taken =>
    unfold advance
    dsimp only
    split
    · next hphase =>
      cases taken
      · exact .move (.leaving .sendError) (live_of_phase hphase nofun) nofun nofun nofun nofun
      · exact .move (.waiting _) (live_of_phase hphase nofun) nofun nofun nofun nofun
    · exact .stay
  | poll =>
    unfold advance
    dsimp only
    split
    · next hphase hpoll =>
      refine .move (.leaving (.ok _)) (live_of_phase hphase nofun) nofun nofun
        (fun b hb => ?_) nofun
      cases hb
      exact Option.bind_eq_some_iff.mp hpoll
    · next hphase hpoll =>
      exact .move (.leaving .panicked) (live_of_phase hphase nofun) nofun nofun nofun
        fun _ => Option.bind_eq_some_iff.mp hpoll
    · exact .stay
  | timeout =>
    unfold advance
    dsimp only
    split
    · next hphase =>
      split
      · exact .move (.sending _) (live_of_phase hphase nofun) nofun nofun nofun nofun
      · exact .move (.leaving .timedOut) (live_of_phase hphase nofun) nofun nofun nofun nofun
    · exact .stay
  | cancel =>
    unfold advance
    dsimp only
    split
    · exact .stay
    · exact .stay
    · next hnot =>
      exact .move (.leaving .cancelled) hnot nofun nofun nofun nofun
  | drop =>
    unfold advance
    dsimp only
    split
    · next hphase => exact .leave _ hphase
    · exact .stay

/-- A step neither changes whom a call calls nor takes its response away. -/
theorem Advances.keeps {call next : Call} {pending pending' : Pending}
    (h : call.Advances pending next pending')
    (hdraw : call.phase = .drawing → call.response = none) :
    next.address = call.address
      ∧ ∀ r, call.response = some r → next.response = some r := by
  cases h with
  | stay | move | leave => exact ⟨rfl, fun _ hr => hr⟩
  | register id hphase =>
    refine ⟨rfl, fun r hr => ?_⟩
    rw [hdraw hphase] at hr
    cases hr

/-- A call that returns a reply did so before, or sees it now. -/
theorem Advances.ok {call next : Call} {pending pending' : Pending}
    (h : call.Advances pending next pending') {reply : List UInt8}
    (hok : next.phase.outcome = some (.ok reply)) :
    next.response = call.response ∧ next.address = call.address
      ∧ (call.phase.outcome = some (.ok reply)
        ∨ ∃ r, call.response = some r ∧ pending.poll r = some (some reply)) := by
  cases h with
  | stay => exact ⟨rfl, rfl, Or.inl hok⟩
  | register => cases hok
  | move phase _ _ _ hreply => exact ⟨rfl, rfl, Or.inr (hreply reply hok)⟩
  | leave outcome hphase =>
    refine ⟨rfl, rfl, Or.inl ?_⟩
    rw [hphase]
    exact hok

/-- A step of a call sends nothing into a channel. -/
theorem Advances.value {call next : Call} {pending pending' : Pending}
    (h : call.Advances pending next pending') (rx : ℕ) : pending'.value rx = pending.value rx := by
  cases h with
  | stay | move => rfl
  | register id => exact Pending.value_register ..
  | leave =>
    cases call.response with
    | none => rfl
    | some r => exact Pending.value_drop ..

end Call

/-! ## One step of the transport

A step of the transport is a step of one call, or of the receive loop, or
nothing that a call can see. Serving the requests of others is of the last
kind. -/

namespace Transport

/-- **What the receive loop does with a datagram**: it takes the slot of a reply
out of the pool, or it leaves everything but the requests alone. -/
theorem receive_cases (s : Transport) (source : SocketAddr) (datagram : List UInt8) :
    (∃ id payload tx, inbound source datagram = .reply id payload
      ∧ s.pending.slots id = some ⟨source, tx⟩
      ∧ s.receive source datagram
        = { s with
            pending := { s.pending with slots := Function.update s.pending.slots id none }
            receiving := .delivering tx payload })
    ∨ ∃ requests, s.receive source datagram = { s with requests := requests }
      ∧ ∀ id payload, inbound source datagram = .reply id payload → requests = s.requests := by
  unfold receive
  cases inbound source datagram with
  | dropped => exact Or.inr ⟨s.requests, rfl, nofun⟩
  | request request => exact Or.inr ⟨_, rfl, nofun⟩
  | reply id payload =>
    dsimp only
    by_cases hexp : s.pending.Expects id source
    · obtain ⟨tx, hs⟩ := hexp
      rw [Pending.take_of_slot hs]
      exact Or.inl ⟨id, payload, tx, rfl, hs, rfl⟩
    · rw [Pending.take_of_not_expects hexp]
      exact Or.inr ⟨s.requests, rfl, fun _ _ _ => rfl⟩

/-- What a step of the transport can do. -/
inductive Steps (s : Transport) : Event → Transport → Prop where
  /-- Make a call. -/
  | call (address : SocketAddr) (payload : List UInt8) :
      Steps s (.call address payload) { s with calls := s.calls ++ [Call.new address payload] }
  /-- Move a call on. -/
  | advance {i : ℕ} {call next : Call} {pending : Pending} (progress : Progress)
      (sent : List (SocketAddr × List UInt8)) (hc : s.calls[i]? = some call)
      (hadv : call.Advances s.pending next pending) :
      Steps s (.advance i progress)
        { s with pending := pending, calls := s.calls.set i next, sent := sent }
  /-- Take the slot a reply is for out of the pool. -/
  | take {source : SocketAddr} {datagram payload : List UInt8} {id : UInt64} {tx : ℕ}
      (hidle : s.receiving = .idle) (hreply : inbound source datagram = .reply id payload)
      (hslot : s.pending.slots id = some ⟨source, tx⟩) :
      Steps s (.receive source datagram)
        { s with
          pending := { s.pending with slots := Function.update s.pending.slots id none }
          receiving := .delivering tx payload }
  /-- Send the reply into the slot. -/
  | hand {tx : ℕ} {payload : List UInt8} (htx : s.receiving = .delivering tx payload) :
      Steps s .hand { s with pending := (s.pending.send tx payload).2, receiving := .idle }
  /-- Stop receiving. -/
  | stop (hidle : s.receiving = .idle) : Steps s .stop { s with receiving := .stopped }
  /-- Nothing that a call sees. -/
  | other (event : Event) (requests : Option Requests) :
      Steps s event { s with requests := requests }

/-- **A step of the transport does one of these.** -/
theorem steps (s : Transport) (event : Event) : s.Steps event (s.step event) := by
  cases event with
  | call address payload => exact .call address payload
  | advance i progress =>
    unfold step
    dsimp only
    split
    · exact .other _ s.requests
    · next call hc => exact .advance _ _ hc (call.advances s.pending progress)
  | receive source datagram =>
    unfold step
    dsimp only
    split
    · next hidle =>
      rcases receive_cases s source datagram with ⟨id, payload, tx, hreply, hs, heq⟩ | ⟨_, heq, -⟩
      · rw [heq]
        exact .take hidle hreply hs
      · rw [heq]
        exact .other _ _
    · exact .other _ s.requests
  | hand =>
    unfold step
    dsimp only
    split
    · next htx => exact .hand htx
    · exact .other _ s.requests
  | stop =>
    unfold step
    dsimp only
    split
    · next hidle => exact .stop hidle
    · exact .other _ s.requests
  | serve => exact .other _ _
  | close => exact .other _ _

end Transport

/-! ## What holds throughout

The pool of waiting requests is in order together with the responses of the
calls under way and the sender in the hands of the loop, if it holds one. The
remaining clauses tie responses to calls: no two calls wait on one channel, and
a slot expects the peer that its call calls. -/

namespace Transport

/-- The responses of the calls under way. -/
def alive (s : Transport) : Set PendingResponse :=
  {r | ∃ (i : ℕ) (call : Call), s.calls[i]? = some call ∧ call.response = some r ∧ call.Live}

/-- **A transport in order.** -/
structure Ok (s : Transport) : Prop where
  /-- The pool is in order, with the responses of the calls under way. -/
  pending : s.pending.Ok s.alive s.receiving.taken
  /-- A call has no response before it has an id. -/
  drawing : ∀ (i : ℕ) (call : Call), s.calls[i]? = some call → call.phase = .drawing →
    call.response = none
  /-- A response is for the id of a request, and has its channel. -/
  response : ∀ (i : ℕ) (call : Call) (r : PendingResponse), s.calls[i]? = some call →
    call.response = some r → isReply r.id = false ∧ r.rx < s.pending.channels.length
  /-- No two calls ever wait on one channel. -/
  inj : ∀ (i j : ℕ) (call call' : Call) (r r' : PendingResponse),
    s.calls[i]? = some call → s.calls[j]? = some call' →
    call.response = some r → call'.response = some r' → r.rx = r'.rx → i = j
  /-- A slot expects the peer its call calls. -/
  peer : ∀ (id : UInt64) (slot : PendingSlot) (i : ℕ) (call : Call),
    s.pending.slots id = some slot → s.calls[i]? = some call →
    call.response = some ⟨id, slot.tx⟩ → slot.expectedPeer = call.address

variable {s t : Transport}

theorem ok_build (requests : Option Requests) : (build requests).Ok := by
  have hempty : (build requests).alive = ∅ :=
    Set.eq_empty_of_forall_notMem fun _ ⟨_, _, h, _⟩ => (nomatch h)
  refine ⟨?_, fun _ _ h => (nomatch h), fun _ _ _ h => (nomatch h),
    fun _ _ _ _ _ _ h => (nomatch h), fun _ _ _ _ h => (nomatch h)⟩
  rw [hempty]
  exact Pending.ok_new

/-- **No slot outlives its call.** A slot is of a response that is alive, and
those alive are the responses of calls that have not ended. -/
theorem Ok.slot (h : s.Ok) {id : UInt64} {slot : PendingSlot}
    (hs : s.pending.slots id = some slot) :
    ∃ (i : ℕ) (call : Call), s.calls[i]? = some call ∧ call.response = some ⟨id, slot.tx⟩
      ∧ slot.expectedPeer = call.address ∧ call.Live := by
  obtain ⟨⟨i, call, hc, hr, hlive⟩, -⟩ := h.pending.slot id slot hs
  exact ⟨i, call, hc, hr, h.peer id slot i call hs hc hr, hlive⟩

/-- What is left to show after a step that gives no call a response and registers
nothing. -/
theorem Ok.of_calls (h : s.Ok) (hpending : t.pending.Ok t.alive t.receiving.taken)
    (hcalls : ∀ (j : ℕ) (call' : Call), t.calls[j]? = some call' → call'.response = none
      ∨ ∃ call, s.calls[j]? = some call ∧ call.response = call'.response
        ∧ call.address = call'.address ∧ (call'.phase = .drawing → call.phase = .drawing))
    (hslots : ∀ id slot, t.pending.slots id = some slot → s.pending.slots id = some slot)
    (hlen : s.pending.channels.length ≤ t.pending.channels.length) : t.Ok := by
  have hold : ∀ {j : ℕ} {call' : Call} {r : PendingResponse}, t.calls[j]? = some call' →
      call'.response = some r →
      ∃ call, s.calls[j]? = some call ∧ call.response = some r ∧ call.address = call'.address := by
    intro j call' r hc hr
    rcases hcalls j call' hc with hnone | ⟨call, hcall, hresp, haddr, -⟩
    · rw [hnone] at hr
      cases hr
    · exact ⟨call, hcall, hresp.trans hr, haddr⟩
  refine ⟨hpending, fun j call' hc hd => ?_, fun j call' r hc hr => ?_,
    fun i j ci cj r r' hi hj hri hrj he => ?_, fun id slot j call' hs hc hr => ?_⟩
  · rcases hcalls j call' hc with hnone | ⟨call, hcall, hresp, -, hdraw⟩
    · exact hnone
    · exact hresp.symm.trans (h.drawing j call hcall (hdraw hd))
  · obtain ⟨call, hcall, hresp, -⟩ := hold hc hr
    obtain ⟨hid, hlt⟩ := h.response j call r hcall hresp
    exact ⟨hid, hlt.trans_le hlen⟩
  · obtain ⟨ci', hci, hri', -⟩ := hold hi hri
    obtain ⟨cj', hcj, hrj', -⟩ := hold hj hrj
    exact h.inj i j ci' cj' r r' hci hcj hri' hrj' he
  · obtain ⟨call, hcall, hresp, haddr⟩ := hold hc hr
    exact (h.peer id slot j call (hslots id slot hs) hcall hresp).trans haddr

/-- A step that leaves the calls alone. -/
theorem Ok.of_same_calls (h : s.Ok) (hcalls : t.calls = s.calls)
    (hpending : t.pending.Ok s.alive t.receiving.taken)
    (hslots : ∀ id slot, t.pending.slots id = some slot → s.pending.slots id = some slot)
    (hlen : s.pending.channels.length ≤ t.pending.channels.length) : t.Ok := by
  have halive : t.alive = s.alive := by
    unfold alive
    rw [hcalls]
  refine h.of_calls (halive ▸ hpending) (fun j call' hc => Or.inr ⟨call', ?_⟩) hslots hlen
  exact ⟨hcalls ▸ hc, rfl, rfl, fun hd => hd⟩

/-- The responses of the calls under way, one call told apart. -/
theorem mem_alive_iff {i : ℕ} {call : Call} (hc : s.calls[i]? = some call)
    {r : PendingResponse} :
    r ∈ s.alive ↔ (call.response = some r ∧ call.Live)
      ∨ ∃ (j : ℕ) (call' : Call), j ≠ i ∧ s.calls[j]? = some call'
        ∧ call'.response = some r ∧ call'.Live := by
  constructor
  · rintro ⟨j, call', hc', hr⟩
    by_cases hj : j = i
    · obtain rfl : call = call' := Option.some.inj (hc.symm.trans (hj ▸ hc'))
      exact Or.inl hr
    · exact Or.inr ⟨j, call', hj, hc', hr⟩
  · rintro (hr | ⟨j, call', -, hc', hr⟩)
    · exact ⟨i, call, hc, hr⟩
    · exact ⟨j, call', hc', hr⟩

section Replace

variable {i : ℕ} {call next : Call}

/-- The calls after one of them was replaced. -/
theorem getElem?_of_set (hc : s.calls[i]? = some call) (ht : t.calls = s.calls.set i next)
    {j : ℕ} {call' : Call} (hj : t.calls[j]? = some call') :
    (j = i ∧ call' = next) ∨ (j ≠ i ∧ s.calls[j]? = some call') := by
  rw [ht] at hj
  by_cases hji : j = i
  · rw [hji, List.getElem?_set_self (List.getElem?_eq_some_iff.mp hc).1] at hj
    exact Or.inl ⟨hji, (Option.some.inj hj).symm⟩
  · rw [List.getElem?_set_ne (Ne.symm hji)] at hj
    exact Or.inr ⟨hji, hj⟩

/-- The responses of the calls under way after one of them was replaced. -/
theorem mem_alive_of_set (hc : s.calls[i]? = some call) (ht : t.calls = s.calls.set i next)
    {r : PendingResponse} :
    r ∈ t.alive ↔ (next.response = some r ∧ next.Live)
      ∨ ∃ (j : ℕ) (call' : Call), j ≠ i ∧ s.calls[j]? = some call'
        ∧ call'.response = some r ∧ call'.Live := by
  have hi : t.calls[i]? = some next := by
    rw [ht]
    exact List.getElem?_set_self (List.getElem?_eq_some_iff.mp hc).1
  refine (mem_alive_iff hi).trans (or_congr_right ?_)
  refine exists_congr fun j => exists_congr fun call' => and_congr_right fun hj => ?_
  rw [ht, List.getElem?_set_ne (Ne.symm hj)]

/-- What is left to show after a step of a call that keeps its response. -/
theorem Ok.of_set (h : s.Ok) (hc : s.calls[i]? = some call)
    (ht : t.calls = s.calls.set i next) (hresp : next.response = call.response)
    (haddr : next.address = call.address) (hdraw : next.phase = .drawing → call.phase = .drawing)
    (hpending : t.pending.Ok t.alive t.receiving.taken)
    (hslots : ∀ id slot, t.pending.slots id = some slot → s.pending.slots id = some slot)
    (hlen : s.pending.channels.length ≤ t.pending.channels.length) : t.Ok := by
  refine h.of_calls hpending (fun j call' hj => Or.inr ?_) hslots hlen
  rcases getElem?_of_set hc ht hj with ⟨rfl, rfl⟩ | ⟨-, hj⟩
  · exact ⟨call, hc, hresp.symm, haddr.symm, hdraw⟩
  · exact ⟨call', hj, rfl, rfl, fun hd => hd⟩

/-- A call that moves on stays under way. -/
theorem Ok.move (h : s.Ok) (hc : s.calls[i]? = some call) {phase : Call.Phase} (hlive : call.Live)
    (hnot : phase ≠ .drawing) (hgoes : ∀ outcome, phase ≠ .ended outcome)
    (ht : t.calls = s.calls.set i { call with phase := phase }) (hp : t.pending = s.pending)
    (hr : t.receiving = s.receiving) : t.Ok := by
  have halive : t.alive = s.alive := by
    ext r
    rw [mem_alive_of_set hc ht, mem_alive_iff hc]
    exact or_congr_left (and_congr_right fun _ => iff_of_true hgoes hlive)
  refine h.of_set hc ht rfl rfl (fun hd => absurd hd hnot) ?_ (fun _ _ hs => hp ▸ hs) (hp ▸ le_rfl)
  rw [halive, hp, hr]
  exact h.pending

/-- A call that is over leaves no slot. -/
theorem Ok.leave (h : s.Ok) (hc : s.calls[i]? = some call) {outcome : Outcome}
    (hlive : call.Live) (ht : t.calls = s.calls.set i { call with phase := .ended outcome })
    (hp : t.pending = call.response.elim s.pending s.pending.drop)
    (hr : t.receiving = s.receiving) : t.Ok := by
  have hothers : ∀ r, r ∈ t.alive ↔ ∃ (j : ℕ) (call' : Call), j ≠ i ∧ s.calls[j]? = some call'
      ∧ call'.response = some r ∧ call'.Live := by
    intro r
    rw [mem_alive_of_set hc ht]
    exact or_iff_right fun hend => hend.2 outcome rfl
  cases hresp : call.response with
  | none =>
    rw [hresp, Option.elim_none] at hp
    have halive : t.alive = s.alive := by
      ext r
      rw [hothers, mem_alive_iff hc, hresp]
      exact (or_iff_right fun hend => (nomatch hend.1)).symm
    refine h.of_set hc ht rfl rfl nofun ?_ (fun _ _ hs => hp ▸ hs) (hp ▸ le_rfl)
    rw [halive, hp, hr]
    exact h.pending
  | some own =>
    rw [hresp, Option.elim_some] at hp
    have halive : t.alive = s.alive \ {own} := by
      ext r
      rw [hothers, Set.mem_sdiff, mem_alive_iff hc, hresp]
      constructor
      · rintro ⟨j, call', hj, hcall, hrj, hl⟩
        refine ⟨Or.inr ⟨j, call', hj, hcall, hrj, hl⟩, fun he => hj ?_⟩
        exact h.inj j i call' call r own hcall hc hrj hresp (congrArg PendingResponse.rx he)
      · rintro ⟨hown | hother, hne⟩
        · exact absurd (Option.some.inj hown.1).symm hne
        · exact hother
    refine h.of_set hc ht rfl rfl nofun ?_ (fun id slot hs => ?_) ?_
    · rw [halive, hp, hr]
      exact h.pending.drop ⟨i, call, hc, hresp, hlive⟩
    · rw [hp, Pending.slots_drop] at hs
      by_cases hid : id = own.id
      · rw [hid, Function.update_self] at hs
        cases hs
      · rwa [Function.update_of_ne hid] at hs
    · rw [hp, Pending.length_channels_drop]

/-- The response of a call that registers its id is alive from then on. -/
theorem alive_of_register (hc : s.calls[i]? = some call) (hresp : call.response = none)
    (ht : t.calls = s.calls.set i next) {r : PendingResponse} (hnext : next.response = some r)
    (hlive : next.Live) : t.alive = s.alive ∪ {r} := by
  ext r'
  rw [mem_alive_of_set hc ht, Set.mem_union, mem_alive_iff hc, hresp, hnext]
  constructor
  · rintro (⟨hnew, -⟩ | hother)
    · exact Or.inr (Option.some.inj hnew).symm
    · exact Or.inl (Or.inr hother)
  · rintro ((⟨hnone, -⟩ | hother) | rfl)
    · cases hnone
    · exact Or.inr hother
    · exact Or.inl ⟨rfl, hlive⟩

/-- A call that registers its id has a slot. -/
theorem Ok.register (h : s.Ok) (hc : s.calls[i]? = some call) (hphase : call.phase = .drawing)
    {id : UInt64} (hid : isReply id = false) (hfree : s.pending.slots id = none)
    (ht : t.calls = s.calls.set i
      { call with response := some ⟨id, s.pending.channels.length⟩, phase := .sending 0 })
    (hp : t.pending = (s.pending.register id call.address).2)
    (hr : t.receiving = s.receiving) : t.Ok := by
  -- a response given out before has a channel of its own
  have hold : ∀ {j : ℕ} {call' : Call} {r : PendingResponse}, s.calls[j]? = some call' →
      call'.response = some r → r.rx ≠ s.pending.channels.length := fun hj hrj =>
    (h.response _ _ _ hj hrj).2.ne
  have hpool := h.pending.register hfree call.address
  rw [Pending.register_of_free hfree] at hp hpool
  refine ⟨?_, fun j call' hj hd => ?_, fun j call' r hj hrj => ?_,
    fun j k cj ck r r' hj hk hrj hrk he => ?_, fun id' slot j call' hs hj hrj => ?_⟩
  · rw [alive_of_register hc (h.drawing i call hc hphase) ht rfl (fun _ he => (nomatch he)), hp, hr]
    exact hpool
  · rcases getElem?_of_set hc ht hj with ⟨rfl, rfl⟩ | ⟨-, hj⟩
    · cases hd
    · exact h.drawing j call' hj hd
  · rw [hp]
    dsimp only
    rw [List.length_append, List.length_singleton]
    rcases getElem?_of_set hc ht hj with ⟨rfl, rfl⟩ | ⟨-, hj⟩
    · cases hrj
      exact ⟨hid, Nat.lt_succ_self _⟩
    · exact (h.response j call' r hj hrj).imp_right Nat.lt_succ_of_lt
  · rcases getElem?_of_set hc ht hj with ⟨rfl, rfl⟩ | ⟨-, hj⟩ <;>
      rcases getElem?_of_set hc ht hk with ⟨rfl, rfl⟩ | ⟨-, hk⟩
    · rfl
    · cases hrj
      exact absurd he.symm (hold hk hrk)
    · cases hrk
      exact absurd he (hold hj hrj)
    · exact h.inj j k cj ck r r' hj hk hrj hrk he
  · rw [hp] at hs
    dsimp only at hs
    by_cases hii : id' = id
    · rw [hii, Function.update_self] at hs
      cases hs
      rcases getElem?_of_set hc ht hj with ⟨rfl, rfl⟩ | ⟨-, hj⟩
      · rfl
      · exact absurd rfl (hold hj hrj)
    · rw [Function.update_of_ne hii] at hs
      rcases getElem?_of_set hc ht hj with ⟨rfl, rfl⟩ | ⟨-, hj⟩
      · exact absurd (congrArg PendingResponse.id (Option.some.inj hrj)).symm hii
      · exact h.peer id' slot j call' hs hj hrj

end Replace

/-- **The step of a call keeps the transport in order.** -/
theorem Ok.advance (h : s.Ok) {i : ℕ} {call next : Call} {pending : Pending}
    (hc : s.calls[i]? = some call) (hadv : call.Advances s.pending next pending)
    (sent : List (SocketAddr × List UInt8)) :
    ({ s with pending := pending, calls := s.calls.set i next, sent := sent } : Transport).Ok := by
  cases hadv with
  | stay =>
    have hsame : s.calls.set i call = s.calls := by
      obtain ⟨hlt, rfl⟩ := List.getElem?_eq_some_iff.mp hc
      exact List.set_getElem_self hlt
    exact h.of_same_calls hsame h.pending (fun _ _ hs => hs) le_rfl
  | register id hphase hid hfree => exact h.register hc hphase hid hfree rfl rfl rfl
  | move phase hlive hnot hgoes => exact h.move hc hlive hnot hgoes rfl rfl rfl
  | leave outcome hphase =>
    exact h.leave hc (Call.live_of_phase hphase nofun) rfl rfl rfl

/-- **Taking a slot out of the pool keeps the transport in order.** -/
theorem Ok.take (h : s.Ok) (hidle : s.receiving = .idle) {id : UInt64} {slot : PendingSlot}
    (hs : s.pending.slots id = some slot) (payload : List UInt8) :
    ({ s with
        pending := { s.pending with slots := Function.update s.pending.slots id none }
        receiving := .delivering slot.tx payload } : Transport).Ok := by
  have hpool : s.pending.Ok s.alive none := by
    have hp := h.pending
    rwa [hidle] at hp
  refine h.of_same_calls rfl (hpool.take hs) (fun id' slot' hs' => ?_) le_rfl
  dsimp only at hs'
  by_cases hid : id' = id
  · rw [hid, Function.update_self] at hs'
    cases hs'
  · rwa [Function.update_of_ne hid] at hs'

/-- The calls after one was made. -/
theorem getElem?_of_append {call : Call} {j : ℕ} {call' : Call}
    (hj : (s.calls ++ [call])[j]? = some call') :
    s.calls[j]? = some call' ∨ call' = call := by
  by_cases hlt : j < s.calls.length
  · exact Or.inl ((List.getElem?_append_left hlt).symm.trans hj)
  · rw [List.getElem?_append_right (not_lt.mp hlt)] at hj
    exact Or.inr (List.mem_singleton.mp (List.mem_of_getElem? hj))

/-- **A call that is made keeps the transport in order.** -/
theorem Ok.call (h : s.Ok) (address : SocketAddr) (payload : List UInt8) :
    ({ s with calls := s.calls ++ [Call.new address payload] } : Transport).Ok := by
  have halive :
      ({ s with calls := s.calls ++ [Call.new address payload] } : Transport).alive = s.alive := by
    ext r
    constructor
    · rintro ⟨j, call', hj, hr⟩
      rcases getElem?_of_append hj with hj | rfl
      · exact ⟨j, call', hj, hr⟩
      · cases hr.1
    · rintro ⟨j, call', hj, hr⟩
      have hlt := (List.getElem?_eq_some_iff.mp hj).1
      exact ⟨j, call', (List.getElem?_append_left hlt).trans hj, hr⟩
  refine h.of_calls ?_ (fun j call' hj => ?_) (fun _ _ hs => hs) le_rfl
  · rw [halive]
    exact h.pending
  · rcases getElem?_of_append hj with hj | rfl
    · exact Or.inr ⟨call', hj, rfl, rfl, fun hd => hd⟩
    · exact Or.inl rfl

/-- **The step.** Each kind of step has a lemma of its own above. -/
theorem Ok.step (h : s.Ok) {event : Event} (hstep : s.Steps event t) : t.Ok := by
  cases hstep with
  | call address payload => exact h.call address payload
  | advance progress sent hc hadv => exact h.advance hc hadv sent
  | take hidle _ hslot => exact h.take hidle hslot _
  | hand htx =>
    have hpool := h.pending
    rw [htx] at hpool
    refine h.of_same_calls rfl (hpool.send _) (fun id slot hs => ?_) ?_
    · rwa [Pending.slots_send] at hs
    · exact (Pending.length_channels_send ..).ge
  | stop hidle =>
    have hpool := h.pending
    rw [hidle] at hpool
    exact h.of_same_calls rfl hpool (fun _ _ hs => hs) le_rfl
  | other => exact h.of_same_calls rfl h.pending (fun _ _ hs => hs) le_rfl

/-- **The run.** A new transport is in order, and every step keeps it so. -/
theorem ok_run (requests : Option Requests) (events : List Event) : (run requests events).Ok :=
  List.foldlRecOn events _ (ok_build requests) fun s h event _ => h.step (s.steps event)

/-! ## Where a reply comes from

A reply passes through three hands: the receive loop takes it with the slot it
is for, the channel holds it, and the call returns it. At each of these it is
known when it arrived, from whom, and that the slot was registered at that
moment (`Arrives`). -/

/-- What a step does with the calls. -/
theorem Steps.calls {event : Event} (hstep : s.Steps event t) {i : ℕ} {call' : Call}
    (h : t.calls[i]? = some call') :
    call'.phase = .drawing
      ∨ ∃ call pending, s.calls[i]? = some call ∧ call.Advances s.pending call' pending := by
  cases hstep with
  | call address payload =>
    rcases getElem?_of_append h with hc | rfl
    · exact Or.inr ⟨call', _, hc, .stay⟩
    · exact Or.inl rfl
  | advance progress sent hc hadv =>
    rcases getElem?_of_set hc rfl h with ⟨rfl, rfl⟩ | ⟨-, hi⟩
    · exact Or.inr ⟨_, _, hc, hadv⟩
    · exact Or.inr ⟨call', _, hi, .stay⟩
  | take | hand | stop | other => exact Or.inr ⟨call', _, h, .stay⟩

/-- **A call keeps its peer and, once it has one, its response.** -/
theorem Ok.calls_keep (h : s.Ok) {event : Event} (hstep : s.Steps event t) {i : ℕ} {call : Call}
    (hc : s.calls[i]? = some call) :
    ∃ call', t.calls[i]? = some call' ∧ call'.address = call.address
      ∧ ∀ r, call.response = some r → call'.response = some r := by
  have hlt := (List.getElem?_eq_some_iff.mp hc).1
  cases hstep with
  | call address payload =>
    exact ⟨call, (List.getElem?_append_left hlt).trans hc, rfl, fun _ hr => hr⟩
  | @advance j call' next _ progress sent hc' hadv =>
    by_cases hij : i = j
    · subst hij
      obtain rfl : call = call' := Option.some.inj (hc.symm.trans hc')
      exact ⟨next, List.getElem?_set_self hlt, hadv.keeps (h.drawing _ _ hc)⟩
    · exact ⟨call, (List.getElem?_set_ne (Ne.symm hij)).trans hc, rfl, fun _ hr => hr⟩
  | take | hand | stop | other => exact ⟨call, hc, rfl, fun _ hr => hr⟩

/-- Only what the receive loop has in hand comes to be in a channel. -/
theorem Steps.value {event : Event} (hstep : s.Steps event t) {rx : ℕ} {payload : List UInt8}
    (h : t.pending.value rx = some payload) :
    s.pending.value rx = some payload ∨ s.receiving = .delivering rx payload := by
  cases hstep with
  | advance progress sent hc hadv => exact Or.inl ((hadv.value rx).symm.trans h)
  | hand htx =>
    rcases Pending.value_send h with hold | ⟨rfl, rfl⟩
    · exact Or.inl hold
    · exact Or.inr htx
  | call | take | stop | other => exact Or.inl h

/-- The receive loop has a reply in hand if one has just arrived that a slot was
waiting for, or if it had it before. -/
theorem Steps.receiving {event : Event} (hstep : s.Steps event t) {tx : ℕ}
    {payload : List UInt8} (h : t.receiving = .delivering tx payload) :
    s.receiving = .delivering tx payload
      ∨ ∃ source datagram id, event = .receive source datagram ∧ s.receiving = .idle
        ∧ inbound source datagram = .reply id payload
        ∧ s.pending.slots id = some ⟨source, tx⟩ := by
  cases hstep with
  | take hidle hreply hslot =>
    cases h
    exact Or.inr ⟨_, _, _, rfl, hidle, hreply, hslot⟩
  | hand | stop => cases h
  | call | advance | other => exact Or.inl h

theorem run_append (requests : Option Requests) (events : List Event) (event : Event) :
    run requests (events ++ [event]) = (run requests events).step event :=
  List.foldl_append

/-- **A reply arrives**: the datagram received after these events comes from the
peer, is a reply to the id of the response, and finds the slot registered. -/
def Arrives (requests : Option Requests) (events before : List Event) (address : SocketAddr)
    (response : PendingResponse) (payload : List UInt8) : Prop :=
  ∃ datagram, before ++ [.receive address datagram] <+: events
    ∧ (run requests before).receiving = .idle
    ∧ (run requests before).pending.slots response.id = some ⟨address, response.rx⟩
    ∧ inbound address datagram = .reply response.id payload

/-- What is in a channel arrived for the call that waits on it. -/
def Explained (requests : Option Requests) (events : List Event) (rx : ℕ)
    (payload : List UInt8) : Prop :=
  ∃ (i : ℕ) (call : Call) (r : PendingResponse) (before : List Event),
    (run requests events).calls[i]? = some call ∧ call.response = some r ∧ r.rx = rx
      ∧ Arrives requests events before call.address r payload

/-- Every reply on its way to a call, or returned by it, arrived for it. -/
structure Traced (requests : Option Requests) (events : List Event) : Prop where
  /-- In a channel. -/
  value : ∀ rx payload, (run requests events).pending.value rx = some payload →
    Explained requests events rx payload
  /-- In the hands of the receive loop. -/
  receiving : ∀ tx payload, (run requests events).receiving = .delivering tx payload →
    Explained requests events tx payload
  /-- Returned. -/
  ok : ∀ (i : ℕ) (call : Call) payload, (run requests events).calls[i]? = some call →
    call.phase.outcome = some (.ok payload) →
    ∃ r before, call.response = some r ∧ Arrives requests events before call.address r payload

section Trace

variable {requests : Option Requests} {events : List Event}

theorem Arrives.append {before : List Event} {address : SocketAddr} {r : PendingResponse}
    {payload : List UInt8} (h : Arrives requests events before address r payload) (event : Event) :
    Arrives requests (events ++ [event]) before address r payload := by
  obtain ⟨datagram, hpre, harr⟩ := h
  exact ⟨datagram, hpre.trans (List.prefix_append _ _), harr⟩

theorem Explained.append {rx : ℕ} {payload : List UInt8} (h : Explained requests events rx payload)
    (event : Event) : Explained requests (events ++ [event]) rx payload := by
  obtain ⟨i, call, r, before, hc, hr, hrx, harr⟩ := h
  obtain ⟨call', hc', haddr, hkeep⟩ :=
    (ok_run requests events).calls_keep (steps _ event) hc
  refine ⟨i, call', r, before, ?_, hkeep r hr, hrx, haddr ▸ harr.append event⟩
  rw [run_append]
  exact hc'

/-- What a call sees in its channel arrived for it. -/
theorem Traced.poll (h : Traced requests events) {i : ℕ} {call : Call}
    (hc : (run requests events).calls[i]? = some call) {r : PendingResponse}
    (hr : call.response = some r) {payload : List UInt8}
    (hpoll : (run requests events).pending.poll r = some (some payload)) :
    ∃ before, Arrives requests events before call.address r payload := by
  obtain ⟨j, call', r', before, hc', hr', hrx, harr⟩ := h.value _ _ (Pending.value_of_poll hpoll)
  obtain rfl : j = i := (ok_run requests events).inj j i call' call r' r hc' hc hr' hr hrx
  obtain rfl : call' = call := Option.some.inj (hc'.symm.trans hc)
  obtain rfl : r' = r := Option.some.inj (hr'.symm.trans hr)
  exact ⟨before, harr⟩

theorem traced_nil : Traced requests [] := by
  refine ⟨fun rx payload h => ?_, nofun, fun i call payload hc => ?_⟩
  · cases h
  · cases hc

/-- **The step.** A reply that is somewhere after a step was where it comes
from before it, or has just arrived; and what has arrived has arrived in every
longer run. -/
theorem Traced.append (h : Traced requests events) (event : Event) :
    Traced requests (events ++ [event]) := by
  have hok := ok_run requests events
  have hstep := steps (run requests events) event
  have hrun := run_append requests events event
  refine ⟨fun rx payload hv => ?_, fun tx payload hd => ?_, fun i call' payload hc hret => ?_⟩
  · rw [hrun] at hv
    rcases hstep.value hv with hold | hhand
    · exact (h.value rx payload hold).append event
    · exact (h.receiving rx payload hhand).append event
  · rw [hrun] at hd
    rcases hstep.receiving hd with hold | ⟨source, datagram, id, rfl, hidle, hreply, hslot⟩
    · exact (h.receiving tx payload hold).append event
    · -- the slot is of a call under way
      obtain ⟨i, call, hc, hr, haddr, -⟩ := hok.slot hslot
      obtain ⟨call', hc', haddr', hkeep⟩ := hok.calls_keep hstep hc
      obtain rfl : source = call'.address := haddr.trans haddr'.symm
      refine ⟨i, call', ⟨id, tx⟩, events, ?_, hkeep _ hr, rfl, datagram, List.prefix_rfl, hidle,
        hslot, hreply⟩
      rw [hrun]
      exact hc'
  · rw [hrun] at hc
    rcases hstep.calls hc with hdraw | ⟨call, pending, hcall, hadv⟩
    · rw [hdraw] at hret
      cases hret
    · obtain ⟨hresp, haddr, hbefore | ⟨r, hr, hpoll⟩⟩ := hadv.ok hret
      · obtain ⟨r, before, hr, harr⟩ := h.ok i call payload hcall hbefore
        exact ⟨r, before, hresp.trans hr, haddr ▸ harr.append event⟩
      · obtain ⟨before, harr⟩ := h.poll hcall hr hpoll
        exact ⟨r, before, hresp.trans hr, haddr ▸ harr.append event⟩

/-- **The run.** -/
theorem traced_run (requests : Option Requests) (events : List Event) :
    Traced requests events := by
  induction events using List.reverseRecOn with
  | nil => exact traced_nil
  | append_singleton events event ih => exact ih.append event

end Trace

/-- A datagram is marked as a reply. -/
def IsTagged (datagram : List UInt8) : Prop :=
  idLen ≤ datagram.length ∧ isReply (fromBeBytes (datagram.take idLen)) = true

/-- **A datagram completes a call**: the call returns a reply, and the datagram
received after these events is the one that brought it. -/
def Completes (requests : Option Requests) (events before : List Event) (i : ℕ) : Prop :=
  ∃ (call : Call) (r : PendingResponse) (payload : List UInt8),
    (run requests events).calls[i]? = some call
      ∧ call.phase.outcome = some (.ok payload) ∧ call.response = some r
      ∧ Arrives requests events before call.address r payload

/-- The reply in a datagram that is marked as one. -/
theorem isTagged_iff {source : SocketAddr} {datagram : List UInt8} :
    IsTagged datagram ↔ ∃ id payload, inbound source datagram = .reply id payload := by
  unfold IsTagged
  constructor
  · rintro ⟨hlen, htag⟩
    refine ⟨requestId (fromBeBytes (datagram.take idLen)), _, inbound_eq_reply_iff.mpr
      ⟨isReply_requestId _, ?_, rfl⟩⟩
    rw [replyId_requestId htag, toBeBytes_fromBeBytes (List.length_take_of_le hlen)]
  · rintro ⟨id, payload, hreply⟩
    obtain ⟨-, hfront, -⟩ := inbound_eq_reply_iff.mp hreply
    have hlen := congrArg List.length hfront
    rw [length_toBeBytes, List.length_take] at hlen
    refine ⟨by omega, ?_⟩
    rw [hfront, fromBeBytes_toBeBytes, isReply_replyId]

/-- What happens after some of the events. -/
theorem event_eq_of_isPrefix {events before : List Event} {a b : Event}
    (ha : before ++ [a] <+: events) (hb : before ++ [b] <+: events) : a = b := by
  have hlist := (List.prefix_of_prefix_length_le ha hb (by simp)).eq_of_length (by simp)
  simpa using hlist

/-- A datagram that is not marked as a reply is not seen by the calls. -/
theorem step_receive_of_not_isTagged {source : SocketAddr} {datagram : List UInt8}
    (h : ¬ IsTagged datagram) :
    (s.step (.receive source datagram)).pending = s.pending
      ∧ (s.step (.receive source datagram)).calls = s.calls := by
  unfold step
  dsimp only
  split
  · rcases receive_cases s source datagram with ⟨id, payload, tx, hreply, -⟩ | ⟨_, heq, -⟩
    · exact absurd (isTagged_iff.mpr ⟨id, payload, hreply⟩) h
    · rw [heq]
      exact ⟨rfl, rfl⟩
  · exact ⟨rfl, rfl⟩

/-- A datagram that is marked as a reply is not taken for a request. -/
theorem requests_step_receive {datagram : List UInt8} (h : IsTagged datagram)
    (source : SocketAddr) : (s.step (.receive source datagram)).requests = s.requests := by
  obtain ⟨id, payload, hreply⟩ := isTagged_iff.mp h
  unfold step
  dsimp only
  split
  · rcases receive_cases s source datagram with ⟨_, _, _, -, -, heq⟩ | ⟨_, heq, hrequests⟩
    · rw [heq]
    · rw [heq]
      exact hrequests id payload hreply
  · rfl

/-- A datagram from elsewhere leaves a slot in place. -/
theorem slots_step_receive {id : UInt64} {slot : PendingSlot}
    (hs : s.pending.slots id = some slot) {source : SocketAddr} (hne : slot.expectedPeer ≠ source)
    (datagram : List UInt8) :
    (s.step (.receive source datagram)).pending.slots id = some slot := by
  unfold step
  dsimp only
  split
  · rcases receive_cases s source datagram with ⟨id', _, tx, -, hs', heq⟩ | ⟨_, heq, -⟩
    · rw [heq]
      dsimp only
      rwa [Function.update_of_ne]
      rintro rfl
      exact hne (congrArg PendingSlot.expectedPeer (Option.some.inj (hs.symm.trans hs')))
    · rw [heq]
      exact hs
  · exact hs

/-- **Every datagram takes part in at most one call**: two calls do not wait in
one slot. -/
theorem Completes.unique {requests : Option Requests} {events before : List Event} {i j : ℕ}
    (hi : Completes requests events before i) (hj : Completes requests events before j) :
    i = j := by
  obtain ⟨ci, ri, bi, hci, -, hri, di, hprei, -, hsloti, hrepi⟩ := hi
  obtain ⟨cj, rj, bj, hcj, -, hrj, dj, hprej, -, hslotj, hrepj⟩ := hj
  obtain ⟨haddr, hdata⟩ := Event.receive.inj (event_eq_of_isPrefix hprei hprej)
  rw [haddr, hdata, hrepj] at hrepi
  obtain ⟨hid, -⟩ := Inbound.reply.inj hrepi
  rw [← hid, hslotj] at hsloti
  have hrx : rj.rx = ri.rx := congrArg PendingSlot.tx (Option.some.inj hsloti)
  exact (ok_run requests events).inj i j ci cj ri rj hci hcj hri hrj hrx.symm

/-- **Requests and replies are matched.** Whatever is called, drawn, sent and
received, in whatever order: a call returns a reply only if it arrived from the
peer called while the slot of the call was registered, under the id of the
call; a datagram completes at most one call, and none if it is not marked as a
reply; one that is marked is never taken for a request; a reply from elsewhere
leaves the slots in place; and every slot is of a call under way.

A reply is let in by one check, made when it arrives: the id has a slot, and
the slot expects the sender. By the trace, whatever a call returns has passed
it. A datagram vacates the slot it finds, so a duplicate finds none; and where
an id has been registered again since, the slot is that of another call and
another channel. The source address is believed, as it is in the program: a
peer that can forge it can answer for another. -/
theorem replies_match (requests : Option Requests) (events : List Event) :
    (∀ (i : ℕ) (call : Call) (b : List UInt8), (run requests events).calls[i]? = some call →
      call.phase.outcome = some (.ok b) →
      ∃ before datagram id rx, before ++ [.receive call.address datagram] <+: events
        ∧ call.response = some ⟨id, rx⟩
        ∧ (run requests before).pending.slots id = some ⟨call.address, rx⟩
        ∧ datagram.take idLen = toBeBytes (replyId id)
        ∧ (datagram.take receiveBuffer).drop idLen = b
        ∧ Completes requests events before i)
    ∧ (∀ before i j, Completes requests events before i → Completes requests events before j →
      i = j)
    ∧ (∀ before source datagram, before ++ [.receive source datagram] <+: events →
      (¬ IsTagged datagram → (∀ i, ¬ Completes requests events before i)
        ∧ (run requests (before ++ [.receive source datagram])).pending
          = (run requests before).pending
        ∧ (run requests (before ++ [.receive source datagram])).calls
          = (run requests before).calls)
      ∧ (IsTagged datagram → (run requests (before ++ [.receive source datagram])).requests
        = (run requests before).requests)
      ∧ ∀ id slot, (run requests before).pending.slots id = some slot →
        slot.expectedPeer ≠ source →
        (run requests (before ++ [.receive source datagram])).pending.slots id = some slot)
    ∧ ∀ id slot, (run requests events).pending.slots id = some slot →
      ∃ (i : ℕ) (call : Call), (run requests events).calls[i]? = some call
        ∧ call.response = some ⟨id, slot.tx⟩ ∧ call.address = slot.expectedPeer
        ∧ ∀ outcome, call.phase ≠ .ended outcome := by
  refine ⟨fun i call b hc hret => ?_, fun before i j => Completes.unique,
    fun before source datagram hpre => ?_, fun id slot hs => ?_⟩
  · obtain ⟨r, before, hr, harr⟩ := (traced_run requests events).ok i call b hc hret
    have hcomp : Completes requests events before i := ⟨call, r, b, hc, hret, hr, harr⟩
    obtain ⟨datagram, hpre, -, hslot, hreply⟩ := harr
    obtain ⟨-, hfront, hb⟩ := inbound_eq_reply_iff.mp hreply
    exact ⟨before, datagram, r.id, r.rx, hpre, hr, hslot, hfront, hb.symm, hcomp⟩
  · rw [run_append]
    refine ⟨fun htag => ⟨?_, step_receive_of_not_isTagged htag⟩,
      fun htag => requests_step_receive htag source,
      fun id slot hs hne => slots_step_receive hs hne datagram⟩
    rintro i ⟨call, r, payload, -, -, -, datagram', hpre', -, -, hreply⟩
    obtain ⟨-, rfl⟩ := Event.receive.inj (event_eq_of_isPrefix hpre' hpre)
    exact htag (isTagged_iff.mpr ⟨r.id, payload, hreply⟩)
  · obtain ⟨i, call, hc, hr, haddr, hlive⟩ := (ok_run requests events).slot hs
    exact ⟨i, call, hc, hr, haddr.symm, hlive⟩

namespace Sample

/-- The peer called. -/
def server : SocketAddr := .v4 (List.Vector.replicate 4 10) 1

/-- A call that is answered at the second attempt, after a forged reply. -/
def answered : List Event :=
  [.call server [5], .advance 0 (.draw (7 + replyTag)), .advance 0 (.send true),
    .receive (.v4 (List.Vector.replicate 4 10) 2) (HandleRpc.frameReply 7 [1]),
    .advance 0 .timeout, .advance 0 (.send true),
    .receive server (HandleRpc.frameReply 7 [2]), .hand, .advance 0 .poll, .advance 0 .drop]

end Sample

/-- The call returns what its peer answered. -/
theorem replies_match_sample :
    (run none Sample.answered).calls[0]?
        = some ⟨Sample.server, [5], some ⟨7, 0⟩, .ended (.ok [2])⟩
      ∧ ∃ before datagram id rx, before ++ [.receive Sample.server datagram] <+: Sample.answered
        ∧ some ⟨7, 0⟩ = some (PendingResponse.mk id rx)
        ∧ datagram.take idLen = toBeBytes (replyId id)
        ∧ (datagram.take receiveBuffer).drop idLen = [2] := by
  have hcall : (run none Sample.answered).calls[0]?
      = some ⟨Sample.server, [5], some ⟨7, 0⟩, .ended (.ok [2])⟩ := by decide +kernel
  obtain ⟨before, datagram, id, rx, hpre, hr, -, hfront, hb, -⟩ :=
    (replies_match none Sample.answered).1 0 _ [2] hcall rfl
  exact ⟨hcall, before, datagram, id, rx, hpre, hr, hfront, hb⟩

/-! ## Calls with different ids

A call panics when it is told that there will be no reply, and that takes
another call of the same id that is still under way. -/

/-- No call is told that there will be no reply. -/
structure Quiet (s : Transport) : Prop where
  /-- In its channel. -/
  poll : ∀ r ∈ s.alive, s.pending.poll r ≠ some none
  /-- So far. -/
  outcome : ∀ (i : ℕ) (call : Call), s.calls[i]? = some call →
    call.phase.outcome ≠ some .panicked

section Quiet

variable {i : ℕ} {call next : Call} {pending : Pending}

/-- Nobody is told by the step of a call that there will be no reply, if the
calls under way have different ids. -/
theorem Ok.poll_advance (h : s.Ok) (hids : Set.InjOn PendingResponse.id s.alive)
    (hq : s.Quiet) (hc : s.calls[i]? = some call) (hadv : call.Advances s.pending next pending)
    (ht : t.calls = s.calls.set i next) {r : PendingResponse} (hr : r ∈ t.alive) :
    pending.poll r ≠ some none := by
  have hset := (mem_alive_of_set hc ht).mp hr
  cases hadv with
  | stay =>
    rcases hset with hown | ⟨j, call', -, hj⟩
    · exact hq.poll r ⟨i, call, hc, hown⟩
    · exact hq.poll r ⟨j, call', hj⟩
  | move phase hlive =>
    rcases hset with ⟨hown, -⟩ | ⟨j, call', -, hj⟩
    · exact hq.poll r ⟨i, call, hc, hown, hlive⟩
    · exact hq.poll r ⟨j, call', hj⟩
  | register id hphase hid hfree =>
    rcases hset with ⟨hown, -⟩ | ⟨j, call', -, hj⟩
    · cases hown
      rw [Pending.register_of_free hfree]
      simp [Pending.poll, Oneshot.poll, Oneshot.channel]
    · have hr : r ∈ s.alive := ⟨j, call', hj⟩
      rw [h.pending.poll_register hr]
      exact hq.poll r hr
  | leave outcome hphase =>
    rcases hset with ⟨-, hlive⟩ | ⟨j, call', hji, hj, hrj, hl⟩
    · exact absurd rfl (hlive outcome)
    have hr : r ∈ s.alive := ⟨j, call', hj, hrj, hl⟩
    cases hresp : call.response with
    | none => exact hq.poll r hr
    | some own =>
      rw [Option.elim_some, Pending.poll_drop]
      · exact hq.poll r hr
      · -- the slot under the id would be of a third call with it
        intro he
        obtain ⟨slot, hs, htx⟩ := Option.map_eq_some_iff.mp he
        obtain ⟨hmem, -⟩ := h.pending.slot _ _ hs
        obtain rfl : r = ⟨own.id, slot.tx⟩ := h.pending.inj r hr _ hmem htx.symm
        have hlive : call.Live := Call.live_of_phase hphase (fun _ he => by cases he)
        have hown : own ∈ s.alive := ⟨i, call, hc, hresp, hlive⟩
        have hsame : own = ⟨own.id, slot.tx⟩ := hids hown hr rfl
        exact hji (h.inj j i call' call _ own hj hc hrj hresp
          (congrArg PendingResponse.rx hsame).symm)

end Quiet

/-- **The step**: nobody is told that there will be no reply, if the calls under
way have different ids. -/
theorem Ok.quiet_step (h : s.Ok) (hids : Set.InjOn PendingResponse.id s.alive) (hq : s.Quiet)
    {event : Event} (hstep : s.Steps event t) : t.Quiet := by
  constructor
  · intro r hr
    cases hstep with
    | call address payload =>
      obtain ⟨j, call', hj, hrj⟩ := hr
      rcases getElem?_of_append hj with hj | rfl
      · exact hq.poll r ⟨j, call', hj, hrj⟩
      · cases hrj.1
    | advance progress sent hc hadv => exact h.poll_advance hids hq hc hadv rfl hr
    | hand htx =>
      obtain ⟨c, hc, hrecv, -⟩ := h.pending.alive r hr
      exact Pending.poll_send hc hrecv (hq.poll r hr) _
    | take | stop | other => exact hq.poll r hr
  · intro i call' hc hpanic
    rcases hstep.calls hc with hdraw | ⟨call, pending, hcall, hadv⟩
    · rw [hdraw] at hpanic
      cases hpanic
    · cases hadv with
      | stay => exact hq.outcome i _ hcall hpanic
      | register => cases hpanic
      | move phase hlive _ _ _ hwhy =>
        obtain ⟨r, hr, hpoll⟩ := hwhy hpanic
        exact hq.poll r ⟨i, call, hcall, hr, hlive⟩ hpoll
      | leave outcome hphase =>
        refine hq.outcome i call hcall ?_
        rw [hphase]
        exact hpanic

/-- **No call panics as long as the calls under way have different ids.** Only
the drop of a response takes away a slot that a call waits for, and then it is
under the id of the one that is dropped. Ids are drawn at random and a drawn id
that is in use is drawn again, but a delivery frees the id before the call has
ended, so the condition is not one that the program ensures. -/
theorem quiet_run {requests : Option Requests} {events : List Event}
    (hids : ∀ before, before <+: events →
      Set.InjOn PendingResponse.id (run requests before).alive) :
    (run requests events).Quiet := by
  induction events using List.reverseRecOn with
  | nil => exact ⟨fun r ⟨_, _, h, _⟩ => (nomatch h), fun i call h => (nomatch h)⟩
  | append_singleton events event ih =>
    rw [run_append]
    exact (ok_run requests events).quiet_step (hids events (List.prefix_append _ _))
      (ih fun before hpre => hids before (hpre.trans (List.prefix_append _ _))) (steps _ event)

/-- Two calls of one id: the second registers it between the delivery to the
first and the end of the first. -/
example : ((run none
    [.call Sample.server [], .call Sample.server [], .advance 0 (.draw 7), .advance 0 (.send true),
      .receive Sample.server (HandleRpc.frameReply 7 []), .hand, .advance 0 .poll,
      .advance 1 (.draw 7), .advance 0 .drop, .advance 1 (.send true),
      .advance 1 .poll]).calls[1]?).map Call.phase = some (.leaving .panicked) := by
  decide +kernel

end Transport

end Kademlia
