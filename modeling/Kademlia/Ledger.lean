import Kademlia.StorageTargets

/-!
# What a node sends

A client sees what its calls return; what it sent is seen by the network. To
speak of the requests of a run, the client is run on a network that keeps a
record of every call that completes (`Outside.logged`).

Keeping the record changes nothing. Two clients whose networks answer alike
compute alike, whatever else their networks keep (`Simulates`), so the run
that is recorded is the run there is. The same rule says what a read does to
the record: nothing, as far as stores are concerned, since no read sends one.
So the stores of a run are those of its rounds of storing, one after another
(`storeOn_logged`).
-/

namespace Kademlia

/-- Two results that agree, in related states. -/
def Agree {α σ σ' : Type} (R : σ → σ' → Prop) (p : α × σ) (p' : α × σ') : Prop :=
  p.1 = p'.1 ∧ R p.2 p'.2

theorem Agree.exists_eq {α σ σ' : Type} {R : σ → σ' → Prop} {p : α × σ} {p' : α × σ'}
    (h : Agree R p p') : ∃ a s s', p = (a, s) ∧ p' = (a, s') ∧ R s s' :=
  ⟨p.1, p.2, p'.2, rfl, Prod.ext h.1.symm rfl, h.2⟩

/-- **Walks agree where their fetches do.** The walk is a function of what is
fetched, and the state is only passed on. -/
theorem walkFrom_agree {σ σ' : Type} {R : σ → σ' → Prop} {crypto : Crypto}
    {latest : Signed LatestPointer} {owner : VerifyingKey} {domain package : String}
    {fetch : σ → Key → Option (List UInt8) × σ} {fetch' : σ' → Key → Option (List UInt8) × σ'}
    (hfetch : ∀ s s' key, R s s' → Agree R (fetch s key) (fetch' s' key)) (room : ℕ)
    (current : Key) (seen : List Key) (newer : Option Version)
    (chain : List (Signed VersionRecord)) {s : σ} {s' : σ'} (h : R s s') :
    Agree R (walkFrom crypto latest owner domain package fetch room current seen newer chain s)
      (walkFrom crypto latest owner domain package fetch' room current seen newer chain s') := by
  induction room generalizing current seen newer chain s s' with
  | zero => exact ⟨rfl, h⟩
  | succ room ih =>
    unfold walkFrom
    by_cases hseen : current ∈ seen
    · rw [if_pos hseen, if_pos hseen]
      exact ⟨rfl, h⟩
    · rw [if_neg hseen, if_neg hseen]
      obtain ⟨bytes, s₁, s₁', hs, hs', h₁⟩ := (hfetch s s' current h).exists_eq
      rw [hs, hs']
      cases bytes with
      | none => exact ⟨rfl, h₁⟩
      | some bytes =>
        dsimp only
        cases readRecord crypto latest owner domain package current newer bytes with
        | error e => exact ⟨rfl, h₁⟩
        | ok record =>
          dsimp only
          split
          · exact ⟨rfl, h₁⟩
          · exact ih _ _ _ _ h₁

section Simulation

variable {τ ν ν' : Type} [CloseNodes τ]

/-- **Clients whose reads agree**: their networks may keep different things, but
they answer alike in related worlds, which stay related. -/
structure Simulates (R : World τ ν → World τ ν' → Prop) (rpc : Rpc τ ν) (rpc' : Rpc τ ν') :
    Prop where
  /-- They are the same node. -/
  myContact : rpc.myContact = rpc'.myContact
  /-- Their routing tables are the same. -/
  table : ∀ {w w'}, R w w' → w.table = w'.table
  /-- Offering contacts keeps the worlds related. -/
  offer : ∀ {w w'} (contacts), R w w' → R (Rpc.offer contacts w) (Rpc.offer contacts w')
  /-- The same call completes, in the same way. -/
  next : ∀ {w w'} (method body asked), method ≠ .store → R w w' →
    (rpc.next method body asked w = none ∧ rpc'.next method body asked w' = none)
      ∨ ∃ completed rest v v', rpc.next method body asked w = some (completed, rest, v)
        ∧ rpc'.next method body asked w' = some (completed, rest, v') ∧ R v v'
  /-- DNS answers alike. -/
  getDnsVk : ∀ {w w'} (domain), R w w' → Agree R (rpc.getDnsVk domain w) (rpc'.getDnsVk domain w')

namespace Simulates

variable {R : World τ ν → World τ ν' → Prop} {rpc : Rpc τ ν} {rpc' : Rpc τ ν'}
  {w : World τ ν} {w' : World τ ν'}

theorem lookupLoop (h : Simulates R rpc rpc') (target : NodeId) (rounds : ℕ) (st : LookupState)
    (hw : R w w') :
    Agree R (rpc.lookupLoop target rounds st w) (rpc'.lookupLoop target rounds st w') := by
  induction rounds generalizing st w w' with
  | zero => exact ⟨rfl, hw⟩
  | succ rounds ih =>
    unfold Rpc.lookupLoop
    dsimp only
    rcases h.next .findNode ((serialize target).getD [])
      (st.fill (alpha - st.inFlight.length)).inFlight (by decide) hw with
      ⟨hnone, hnone'⟩ | ⟨⟨source, reply⟩, rest, v, v', hsome, hsome', hv⟩
    · rw [hnone, hnone']
      exact ⟨rfl, hw⟩
    · rw [hsome, hsome', ← h.myContact]
      exact ih _ (h.offer _ hv)

theorem targets (h : Simulates R rpc rpc') (key : Key) (hw : R w w') :
    Agree R (rpc.targets key w) (rpc'.targets key w') := by
  obtain ⟨hst, hw₁⟩ := h.lookupLoop key (2 ^ idBits + 1) (Rpc.startLookup key w) hw
  have hstart : Rpc.startLookup key w = Rpc.startLookup key w' := by
    unfold Rpc.startLookup
    rw [h.table hw]
  unfold Rpc.targets Rpc.lookupNode Rpc.runLookup
  rw [← hstart, ← h.myContact]
  exact ⟨by dsimp only; rw [hst], hw₁⟩

theorem lookupValuesLoop (h : Simulates R rpc rpc') (key : Key) (accept : Value → Bool)
    (stopAtFirst : Bool) (rounds : ℕ) (candidates inFlight : List Contact)
    (found : List (Contact × Value)) (hw : R w w') :
    Agree R (rpc.lookupValuesLoop key accept stopAtFirst rounds candidates inFlight found w)
      (rpc'.lookupValuesLoop key accept stopAtFirst rounds candidates inFlight found w') := by
  induction rounds generalizing candidates inFlight found w w' with
  | zero => exact ⟨rfl, hw⟩
  | succ rounds ih =>
    unfold Rpc.lookupValuesLoop
    dsimp only
    rcases h.next .findValue ((serialize key).getD [])
      (inFlight ++ candidates.take (alpha - inFlight.length)) (by decide) hw with
      ⟨hnone, hnone'⟩ | ⟨⟨source, reply⟩, rest, v, v', hsome, hsome', hv⟩
    · rw [hnone, hnone']
      exact ⟨rfl, hw⟩
    · rw [hsome, hsome']
      dsimp only
      cases Rpc.answerIn reply with
      | value value =>
        dsimp only
        split
        · split
          · exact ⟨rfl, hv⟩
          · exact ih _ _ _ hv
        · exact ih _ _ _ hv
      | closest contacts => exact ih _ _ _ (h.offer _ hv)

theorem lookupValues (h : Simulates R rpc rpc') (key : Key) (accept : Value → Bool)
    (stopAtFirst : Bool) (hw : R w w') :
    Agree R (rpc.lookupValues key accept stopAtFirst w)
      (rpc'.lookupValues key accept stopAtFirst w') := by
  obtain ⟨htargets, hw₁⟩ := h.targets key hw
  unfold Rpc.lookupValues
  dsimp only
  rw [← htargets]
  exact h.lookupValuesLoop key accept stopAtFirst _ _ _ _ hw₁

variable (crypto : Crypto)

theorem fetchRecord (h : Simulates R rpc rpc') (hw : R w w') (key : Key) :
    Agree R (rpc.fetchRecord crypto w key) (rpc'.fetchRecord crypto w' key) := by
  obtain ⟨hfound, hw₁⟩ := h.lookupValues key (isBlobFor crypto key) true hw
  refine ⟨?_, hw₁⟩
  unfold Rpc.fetchRecord Rpc.lookupValue
  dsimp only
  rw [hfound]

theorem getLatest (h : Simulates R rpc rpc') (domain package : String) (hw : R w w') :
    Agree R (rpc.getLatest crypto domain package w) (rpc'.getLatest crypto domain package w') := by
  obtain ⟨owner, v, v', hdns, hdns', hv⟩ := (h.getDnsVk domain hw).exists_eq
  unfold Rpc.getLatest
  rw [hdns, hdns']
  cases owner with
  | none => exact ⟨rfl, hv⟩
  | some owner =>
    obtain ⟨hfound, hw₁⟩ := h.lookupValues (latestKey crypto domain package)
      (isLatestFor crypto owner domain package) false hv
    exact ⟨by dsimp only; rw [hfound], hw₁⟩

theorem loadChainFromPointer (h : Simulates R rpc rpc') (pointer : Signed LatestPointer)
    (hw : R w w') :
    Agree R (rpc.loadChainFromPointer crypto pointer w)
      (rpc'.loadChainFromPointer crypto pointer w') := by
  obtain ⟨owner, v, v', hdns, hdns', hv⟩ := (h.getDnsVk pointer.body.domain hw).exists_eq
  unfold Rpc.loadChainFromPointer
  rw [hdns, hdns']
  cases owner with
  | none => exact ⟨rfl, hv⟩
  | some owner =>
    dsimp only
    unfold walkChain
    split
    · exact ⟨rfl, hv⟩
    · exact walkFrom_agree (fun _ _ key hs => h.fetchRecord crypto hs key) _ _ _ _ _ hv

end Simulates

end Simulation

/-! ## Keeping a record

The record is kept by the network and not by the client, so that it cannot
leave anything out: every call that completes is settled there. The client that
is run is the one there is, on a network with a larger state. -/

/-- A call that completed: the calls in flight, which of them it was, and how it
ended. -/
structure Exchange where
  /-- The calls in flight. -/
  requests : List Request
  /-- The one that completed. -/
  position : ℕ
  /-- How it ended. -/
  outcome : Except ErrorKind (List UInt8)
deriving DecidableEq

/-- The request of the call that completed. -/
def Exchange.completed (e : Exchange) : Option Request :=
  e.requests[e.position % e.requests.length]?

/-- Whether a request is to store something: the tag follows the sender's id. -/
def Request.isStore (request : Request) : Bool :=
  Method.store.tag.isPrefixOf (request.payload.drop idBytes)

/-- Whether a node was asked to store something. -/
def Exchange.isStore (e : Exchange) : Bool := e.requests.any Request.isStore

/-- Whether it answered that it did. -/
def Exchange.acknowledged (e : Exchange) : Bool :=
  match e.outcome with
  | .ok reply => reply == stored
  | .error _ => false

section Logged

variable {τ ν : Type}

/-- **The same network, keeping a record.** -/
def Outside.logged (outside : Outside τ ν) : Outside τ (ν × List Exchange) where
  settle world requests :=
    let (i, outcome, world') := outside.settle ⟨world.table, world.net.1⟩ requests
    (i, outcome, ⟨world'.table, (world'.net, world.net.2 ++ [⟨requests, i, outcome⟩])⟩)
  getDnsVk world domain :=
    let (owner, world') := outside.getDnsVk ⟨world.table, world.net.1⟩ domain
    (owner, ⟨world'.table, (world'.net, world.net.2)⟩)

/-- The same client, on the network that keeps a record. -/
def Rpc.logged (rpc : Rpc τ ν) : Rpc τ (ν × List Exchange) :=
  ⟨rpc.myContact, rpc.outside.logged⟩

/-- A world with nothing recorded. -/
def World.logged (world : World τ ν) : World τ (ν × List Exchange) :=
  ⟨world.table, (world.net, [])⟩

/-- A world without its record. -/
def World.plain (world : World τ (ν × List Exchange)) : World τ ν :=
  ⟨world.table, world.net.1⟩

/-- The stores on record, in order. -/
def World.stores (world : World τ (ν × List Exchange)) : List Exchange :=
  world.net.2.filter Exchange.isStore

/-- The run on record is where the run is, and these are its stores. -/
def Sent (stores : List Exchange) (w : World τ ν) (w' : World τ (ν × List Exchange)) : Prop :=
  w'.plain = w ∧ w'.stores = stores

theorem Outside.settle_logged (outside : Outside τ ν) (w' : World τ (ν × List Exchange))
    (requests : List Request) : outside.logged.settle w' requests
      = let p := outside.settle w'.plain requests
        (p.1, p.2.1, ⟨p.2.2.table, (p.2.2.net, w'.net.2 ++ [⟨requests, p.1, p.2.1⟩])⟩) := rfl

theorem sent_logged (world : World τ ν) : Sent [] world world.logged := ⟨rfl, rfl⟩

variable [CloseNodes τ] {rpc : Rpc τ ν} {stores : List Exchange} {w : World τ ν}
  {w' : World τ (ν × List Exchange)}

omit [CloseNodes τ] in
/-- A request is a store exactly if it is sent as one. -/
theorem Rpc.isStore_request (method : Method) (body : List UInt8) (contact : Contact) :
    (rpc.request method body contact).isStore = (method == .store) := by
  have hdrop : (rpc.request method body contact).payload.drop idBytes = method.tag ++ body := by
    unfold Rpc.request
    dsimp only
    rw [List.append_assoc, List.drop_left' (List.Vector.toList_length _)]
  unfold Request.isStore
  rw [hdrop]
  cases method <;> rfl

/-- **A call on the network that keeps a record**: it completes as it would, and
goes on record. -/
theorem Rpc.next_logged (rpc : Rpc τ ν) (method : Method) (body : List UInt8)
    (asked : List Contact) (w' : World τ (ν × List Exchange)) :
    (rpc.next method body asked w'.plain = none ∧ rpc.logged.next method body asked w' = none)
      ∨ ∃ contact rest v v' e,
        rpc.next method body asked w'.plain = some ((contact, e.outcome.toOption), rest, v)
        ∧ rpc.logged.next method body asked w' = some ((contact, e.outcome.toOption), rest, v')
        ∧ v'.plain = v ∧ v'.net.2 = w'.net.2 ++ [e]
        ∧ e.requests = asked.map (rpc.request method body)
        ∧ e.completed = some (rpc.request method body contact)
        ∧ rpc.completion method body asked w'.plain = some (contact, e.outcome) := by
  rcases hs : rpc.outside.settle w'.plain (asked.map (rpc.request method body)) with
    ⟨i, outcome, v⟩
  have hs' : rpc.logged.outside.settle w' (asked.map (rpc.logged.request method body))
      = (i, outcome, ⟨v.table, (v.net, w'.net.2 ++ [⟨asked.map (rpc.request method body), i,
        outcome⟩])⟩) :=
    (rpc.outside.settle_logged w' _).trans (by dsimp only; rw [show
      rpc.outside.settle w'.plain (asked.map (rpc.logged.request method body)) = _ from hs]; rfl)
  unfold Rpc.next Rpc.completion
  rw [hs, hs']
  dsimp only
  cases hget : asked[i % asked.length]? with
  | none => exact Or.inl ⟨rfl, rfl⟩
  | some contact =>
    have hdone : (asked.map (rpc.request method body))[i
        % (asked.map (rpc.request method body)).length]?
          = some (rpc.request method body contact) := by
      rw [List.length_map, List.getElem?_map, hget]
      rfl
    refine Or.inr ?_
    cases outcome with
    | ok reply => exact ⟨contact, _, _, _, ⟨_, i, .ok reply⟩, rfl, rfl, rfl, rfl, rfl, hdone, rfl⟩
    | error e =>
      -- a peer that is gone is forgotten, on record or not
      dsimp only [Rpc.finish]
      split
      · exact ⟨contact, _, _, _, ⟨_, i, .error e⟩, rfl, rfl, rfl, rfl, rfl, hdone, rfl⟩
      · exact ⟨contact, _, _, _, ⟨_, i, .error e⟩, rfl, rfl, rfl, rfl, rfl, hdone, rfl⟩

/-- **Reading stores nothing**, and is not disturbed by the record. The network
that keeps the record settles every call as the other does, and a call that is
not a store leaves the stores on record as they are. -/
theorem simulates_logged (rpc : Rpc τ ν) (stores : List Exchange) :
    Simulates (Sent stores) rpc rpc.logged := by
  refine ⟨rfl, fun hw => hw.1 ▸ rfl, fun contacts hw => ⟨hw.1 ▸ rfl, hw.2⟩, ?_, ?_⟩
  · rintro w w' method body asked hmethod ⟨rfl, rfl⟩
    refine (rpc.next_logged method body asked w').imp id ?_
    rintro ⟨contact, rest, v, v', e, hnext, hnext', hplain, hlog, hreq, -⟩
    refine ⟨_, rest, v, v', hnext, hnext', hplain, ?_⟩
    have hstore : e.isStore = false := by
      unfold Exchange.isStore
      rw [hreq, List.any_map, List.any_eq_false]
      intro c _
      rw [Function.comp_apply, Rpc.isStore_request, beq_iff_eq]
      exact hmethod
    unfold World.stores
    rw [hlog, List.filter_append, List.filter_singleton, hstore]
    exact List.append_nil _
  · rintro w w' domain ⟨rfl, rfl⟩
    exact ⟨rfl, rfl, rfl⟩

/-! ## Lookups on record

A lookup keeps a record of its own, of whom it asked and what it heard, and results
about lookups speak of that. The network's record says the same: the two were made
from the same calls. -/

/-- **The loop of a lookup goes on record call by call.** What the network has on
record of it are the calls that completed, in order, each with how it ended. -/
theorem lookupLoop_logged (rpc : Rpc τ ν) (target : NodeId) (rounds : ℕ) (st : LookupState)
    (w' : World τ (ν × List Exchange)) :
    ∃ es, (rpc.logged.lookupLoop target rounds st w').1
          = (rpc.lookupLoop target rounds st w'.plain).1
      ∧ (rpc.logged.lookupLoop target rounds st w').2.net.2 = w'.net.2 ++ es
      ∧ es.map (fun e => (e.completed, e.outcome))
        = (rpc.lookupCompletions target rounds st w'.plain).map
          (fun p => (some (rpc.request .findNode ((serialize target).getD []) p.1), p.2)) := by
  induction rounds generalizing st w' with
  | zero => exact ⟨[], rfl, (List.append_nil _).symm, rfl⟩
  | succ rounds ih =>
    unfold Rpc.lookupLoop Rpc.lookupCompletions
    dsimp only
    rcases rpc.next_logged .findNode ((serialize target).getD [])
      (st.fill (alpha - st.inFlight.length)).inFlight w' with ⟨hnone, hnone'⟩ |
      ⟨contact, rest, v, v', e, hnext, hnext', rfl, hlog, -, hdone, hcompletion⟩
    · rw [hnone, hnone']
      exact ⟨[], rfl, (List.append_nil _).symm, rfl⟩
    · rw [hnext, hnext', hcompletion]
      obtain ⟨es, hst, hlog', hes⟩ := ih ((st.fill (alpha - st.inFlight.length)).absorb
        rpc.myContact.id target rest (Rpc.nodesIn e.outcome.toOption)) (Rpc.offer
          ((Rpc.nodesIn e.outcome.toOption).filter (fun c => c.id != rpc.myContact.id)) v')
      refine ⟨e :: es, hst, ?_, ?_⟩
      · rw [List.append_cons, ← hlog]
        exact hlog'
      · rw [List.map_cons, hes, hdone]
        rfl

/-- **What a lookup asked and heard is what the network saw.** The requests on the
network's record that completed are one to each contact the lookup has on record as
asked, and the contacts in their replies, one reply after another, are those it has on
record as heard of. The calls of a lookup all complete before it ends, so these are
all the requests it sent. -/
theorem runLookup_logged (rpc : Rpc τ ν) (target : NodeId) (world : World τ ν) :
    ∃ es, (rpc.logged.runLookup target world.logged).1 = (rpc.runLookup target world).1
      ∧ (rpc.logged.runLookup target world.logged).2.net.2 = es
      ∧ (es.map Exchange.completed).Perm ((rpc.runLookup target world).1.probes.map
        (fun c => some (rpc.request .findNode ((serialize target).getD []) c)))
      ∧ (rpc.runLookup target world).1.heard
        = es.flatMap (fun e => Rpc.nodesIn e.outcome.toOption) := by
  obtain ⟨es, hst, hlog, hes⟩ := lookupLoop_logged rpc target (2 ^ idBits + 1)
    (Rpc.startLookup target world) world.logged
  obtain ⟨hheard, hprobes⟩ := runLookup_recorded rpc target world
  have hes' : es.map (fun e => (e.completed, e.outcome)) = (rpc.completions target world).map
      (fun p => (some (rpc.request .findNode ((serialize target).getD []) p.1), p.2)) := hes
  refine ⟨es, hst, hlog, ?_, ?_⟩
  · have hcompleted := congrArg (List.map Prod.fst) hes'
    rw [List.map_map, List.map_map] at hcompleted
    have hmap := hprobes.map
      (fun c => some (rpc.request .findNode ((serialize target).getD []) c))
    rw [List.map_map] at hmap
    exact (List.Perm.of_eq hcompleted).trans hmap
  · have houtcome := congrArg (List.flatMap (fun p => Rpc.nodesIn p.2.toOption)) hes'
    rw [List.flatMap_map, List.flatMap_map] at houtcome
    exact hheard.trans houtcome.symm

/-! ## Rounds of storing

A value is stored on one target after another, each call waiting for its
answer. Every one of the calls goes on record as a store of this key, value and
proof, and the number that is returned is the number of acknowledgements on
record. -/

/-- Every one of some calls asks a node to store a value. -/
def Offered (rpc : Rpc τ ν) (key : Key) (value : Value) (proof : List (Signed VersionRecord))
    (es : List Exchange) : Prop :=
  ∀ e ∈ es, ∃ body peer, encodeRequestWithProof key value proof = some body
    ∧ e.requests = [rpc.request .store body peer]

omit [CloseNodes τ] in
/-- What a call offers is what its request decodes to. -/
theorem Offered.value_eq {es : List Exchange} {key : Key} {value : Value}
    {proof : List (Signed VersionRecord)} (h : Offered rpc key value proof es) {e : Exchange}
    (he : e ∈ es) {body : List UInt8} {peer : Contact} {request : StoreRequest}
    (hreq : e.requests = [rpc.request .store body peer])
    (hdec : deserialize body = some request) : request = ⟨key, value, proof⟩ := by
  obtain ⟨body', peer', henc, hreq'⟩ := h e he
  have hpayload : rpc.request .store body peer = rpc.request .store body' peer' :=
    List.singleton_injective (hreq.symm.trans hreq')
  obtain rfl : body = body' := List.append_cancel_left (congrArg Request.payload hpayload)
  exact Option.some.inj (hdec.symm.trans (deserialize_serialize henc))

/-- **One store**: it goes on record, with the answer. -/
theorem storeWithProof_logged (rpc : Rpc τ ν) (peer : Contact) (key : Key) (value : Value)
    (proof : List (Signed VersionRecord)) (hw : Sent stores w w') :
    ∃ es, Agree (Sent (stores ++ es)) (rpc.storeWithProof peer key value proof w)
        (rpc.logged.storeWithProof peer key value proof w')
      ∧ Offered rpc key value proof es
      ∧ es.countP Exchange.acknowledged
        = (rpc.storeWithProof peer key value proof w).1.toNat := by
  obtain ⟨rfl, rfl⟩ := hw
  unfold Rpc.storeWithProof
  cases hbody : encodeRequestWithProof key value proof with
  | none => exact ⟨[], ⟨rfl, rfl, (List.append_nil _).symm⟩, fun _ he => (nomatch he), rfl⟩
  | some body =>
    dsimp only
    rcases rpc.next_logged .store body [peer] w' with ⟨hnone, -⟩ |
      ⟨contact, rest, v, v', e, hnext, hnext', hplain, hlog, hreq, -⟩
    · exact absurd (Rpc.next_eq_none_iff.mp hnone) (List.cons_ne_nil _ _)
    · rw [hnext, hnext']
      have hstore : e.isStore = true := by
        unfold Exchange.isStore
        rw [hreq]
        simp [Rpc.isStore_request]
      refine ⟨[e], ⟨rfl, hplain, ?_⟩, ?_, ?_⟩
      · unfold World.stores
        rw [hlog, List.filter_append, List.filter_singleton, hstore]
        rfl
      · rintro _ he
        obtain rfl := List.mem_singleton.mp he
        exact ⟨body, peer, hbody, hreq⟩
      · rw [List.countP_singleton]
        unfold Exchange.acknowledged
        cases e.outcome with
        | ok reply =>
          show (if reply == stored then 1 else 0) = (reply == stored).toNat
          cases reply == stored <;> rfl
        | error _ => rfl

/-- **A round of stores**: all of them go on record, and the acknowledgements
are counted. A request that cannot be encoded is not sent, and then none of the
round is. -/
theorem storeOn_logged (rpc : Rpc τ ν) (key : Key) (value : Value)
    (proof : List (Signed VersionRecord)) (targets : List Contact) (accepted : ℕ)
    (hw : Sent stores w w') :
    ∃ es, Agree (Sent (stores ++ es)) (rpc.storeOn key value proof targets accepted w)
        (rpc.logged.storeOn key value proof targets accepted w')
      ∧ Offered rpc key value proof es
      ∧ (rpc.storeOn key value proof targets accepted w).1
        = accepted + es.countP Exchange.acknowledged := by
  induction targets generalizing accepted stores w w' with
  | nil => exact ⟨[], ⟨rfl, hw.1, by rw [List.append_nil]; exact hw.2⟩, fun _ he => (nomatch he),
      rfl⟩
  | cons target targets ih =>
    obtain ⟨es, ⟨hack, hw₁⟩, hoffered, hcount⟩ :=
      storeWithProof_logged rpc target key value proof hw
    unfold Rpc.storeOn
    dsimp only
    rw [← hack]
    obtain ⟨es', hagree, hoffered', hcount'⟩ := ih
      (if (rpc.storeWithProof target key value proof w).1 then accepted + 1 else accepted) hw₁
    refine ⟨es ++ es', List.append_assoc stores es es' ▸ hagree, ?_, ?_⟩
    · exact fun e he => (List.mem_append.mp he).elim (hoffered e) (hoffered' e)
    · rw [hcount', List.countP_append, hcount, ← Nat.add_assoc]
      cases (rpc.storeWithProof target key value proof w).1 <;> rfl

/-- **Storing a value**: nothing is stored while its nodes are looked up. -/
theorem storeValueWithProof_logged (rpc : Rpc τ ν) (crypto : Crypto) (value : Value)
    (proof : List (Signed VersionRecord)) (hw : Sent stores w w') :
    ∃ es, Agree (Sent (stores ++ es)) (rpc.storeValueWithProof crypto value proof w)
        (rpc.logged.storeValueWithProof crypto value proof w')
      ∧ Offered rpc (value.key crypto) value proof es
      ∧ (rpc.storeValueWithProof crypto value proof w).1
        = (value.key crypto, es.countP Exchange.acknowledged) := by
  obtain ⟨htargets, hw₁⟩ := (simulates_logged rpc stores).targets (value.key crypto) hw
  obtain ⟨es, ⟨hcount, hw₂⟩, hoffered, hacks⟩ := storeOn_logged rpc (value.key crypto)
    value proof (rpc.targets (value.key crypto) w).1 0 hw₁
  rw [Nat.zero_add] at hacks
  unfold Rpc.storeValueWithProof
  dsimp only
  rw [← htargets]
  exact ⟨es, ⟨congrArg (Prod.mk _) hcount, hw₂⟩, hoffered, congrArg (Prod.mk _) hacks⟩

end Logged

end Kademlia
