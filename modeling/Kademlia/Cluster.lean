import Kademlia.Converged
import Kademlia.ValueReplies
import Kademlia.Wire

/-!
# A network of nodes

Results about one node hold against any peers. This module puts nodes together:
a network whose nodes all run the program, whose tables are at rest, and in which
no call gets lost. A client is one of the nodes; its calls are served by the
others, and by itself, while they serve and hear whatever else the nodes send
each other.

Several calls of a client are in flight at once. Each is served at some point
after it was made, and its reply is on its way until the client takes it, in any
order (`Cluster.Step`). A reply that the client does not wait for any more is
lost. So a reply tells what was the case when the call was served, not when it is
taken, and what a client may conclude from it has to hold ever since.

What holds in every state is that nodes are sound (`Cluster.Sound`), that a reply
on its way was given by a sound node, and that a node keeps what it acknowledged
(`Cluster.Healthy`). Strangers may connect and send anything: what they store is
only restricted in that hashes do not collide. A datagram, from which a node
learns a contact, comes from a node of the network, at its address.
-/

namespace Kademlia

open HandleRpc

/-- Whether a method is called in a datagram, or over a connection. -/
def Method.inDatagram : Method → Bool
  | .ping | .findNode => true
  | .store | .findValue => false

/-- A request is put together in one way. -/
theorem framed_inj {sender sender' : NodeId} {method method' : Method} {body body' : List UInt8}
    (h : framed sender method body = framed sender' method' body') :
    sender = sender' ∧ method = method' ∧ body = body' := by
  have hparse := congrArg parseFramed h
  unfold framed at hparse
  rw [parseFramed_append, parseFramed_append] at hparse
  cases hparse
  exact ⟨rfl, rfl, rfl⟩

section Answer

variable {A : Type} [CloseNodes A] (crypto : Crypto)

/-- What a node makes of a call from `source`, and what is left of it. -/
def answer (source : SocketAddr) (payload : List UInt8) (context : Context A) :
    Option (List UInt8) × Context A :=
  match parseFramed payload with
  | none => (none, context)
  | some (sender, method, body) =>
    route crypto (if method.inDatagram then context.learn ⟨sender, source⟩ else context) method body

variable {crypto}

theorem answer_framed (source : SocketAddr) (sender : NodeId) (method : Method)
    (body : List UInt8) (context : Context A) :
    answer crypto source (framed sender method body) context
      = route crypto (if method.inDatagram then context.learn ⟨sender, source⟩ else context)
        method body := by
  unfold answer framed
  rw [parseFramed_append]

/-- **That is what a call comes to on the wire**, in a datagram or over a
connection. -/
theorem answer_eq_wire {call : RpcCall} {body : List UInt8} (hbody : call.body = some body)
    (sender : NodeId) (source peer : SocketAddr) {id : UInt64} (hid : isReply id = false)
    {pending : Pending} (hfree : pending.slots id = none) {context : Context A}
    (hanswers : RpcCall.Answers (call.met ⟨sender, source⟩ context)) :
    answer crypto source (framed sender call.method body) context
      = if call.inDatagram
        then viaDatagram crypto pending id source peer (framed sender call.method body) context
        else viaConnection crypto id source (framed sender call.method body) context := by
  have hmethod : call.method.inDatagram = call.inDatagram := by cases call <;> rfl
  rw [answer_framed, hmethod]
  unfold RpcCall.met at hanswers
  cases hdatagram : call.inDatagram with
  | true =>
    rw [hdatagram] at hanswers
    have hbuffer : idLen = 8 ∧ receiveBuffer = 1024 := ⟨rfl, rfl⟩
    have hlen := RpcCall.length_body_le hbody hdatagram
    have hframed := RpcCall.length_framed_le sender call.method body
    refine (viaDatagram_framed hid hfree source peer (by omega) (fun reply hreply => ?_)).symm
    have hback := RpcCall.length_reply_le hanswers hbody hdatagram hreply
    omega
  | false => exact (viaConnection_framed hid source sender call.method body context).symm

end Answer

/-! ## The network

The state is who is at each address, and what is on its way to the client. What
a client has sent may come in again at any node at any time, as nodes hand on
what they store. Others may send what the network allows them to
(`foreign`). -/

/-- **What there is to a network**: its nodes, its cryptography, what DNS answers,
and the requests to store that anyone but the clients may send. -/
structure Cluster where
  /-- The cryptography. -/
  crypto : Crypto
  /-- The nodes. -/
  nodes : Set Contact
  /-- What DNS answers. -/
  dns : String → Option VerifyingKey
  /-- The requests to store that others send. -/
  foreign : Set (List UInt8)
  /-- All requests to store there are. -/
  bodies : Set (List UInt8)
  /-- Those of others are among them. -/
  foreign_subset : foreign ⊆ bodies
  /-- An id names one node. -/
  injOn_id : Set.InjOn Contact.id nodes
  /-- Hashes do not collide on what is stored. -/
  injOn_sha256 : Set.InjOn crypto.sha256 (hashed bodies)

/-- The state of a network. -/
structure Net (A : Type) where
  /-- Who is at an address. -/
  nodes : SocketAddr → Option (Context A)
  /-- The replies on their way to a client; a call that was refused has none. -/
  onTheWay : List (Request × Option (List UInt8))
  /-- The requests to store that clients have sent. -/
  sent : List (List UInt8)

/-- The network when a client starts: it waits for nothing. -/
def Net.quiet {A : Type} (net : Net A) : Net A := { net with onTheWay := [] }

/-- The body of a payload that asks to store. -/
def storeBody (payload : List UInt8) : Option (List UInt8) :=
  match parseFramed payload with
  | some (_, .store, body) => some body
  | _ => none

theorem storeBody_framed (sender : NodeId) (method : Method) (body : List UInt8) :
    storeBody (framed sender method body) = if method = .store then some body else none := by
  unfold storeBody framed
  rw [parseFramed_append]
  cases method <;> rfl

namespace Cluster

variable {A : Type} [CloseNodes A] (cluster : Cluster)

/-- **What may come in at a node** from elsewhere: datagrams of nodes, and over
connections anything, as far as what it stores was sent before or is of others. -/
structure Genuine (sent : List (List UInt8)) (arrival : Arrival) : Prop where
  /-- Whoever is learned is a node. -/
  learned : ∀ c, arrival.learned = some c → c ∈ cluster.nodes
  /-- What is stored was sent before, or is of others. -/
  store : ∀ sender body, arrival.parsed = some (sender, .store, body) →
    body ∈ sent ∨ body ∈ cluster.foreign

/-- **What happens in a network** while calls of the client `me` are in flight. -/
inductive Step (me : Contact) (inFlight : List Request) : Net A → Net A → Prop
  /-- A call in flight is served. -/
  | served {net : Net A} {request : Request} {c : Contact} {context : Context A}
      (hasked : request ∈ inFlight) (hc : c ∈ cluster.nodes) (hpeer : request.peer = c.address)
      (hnode : net.nodes c.address = some context) :
      Step me inFlight net
        { nodes := Function.update net.nodes c.address
            (some (answer cluster.crypto me.address request.payload context).2)
          onTheWay := (request, (answer cluster.crypto me.address request.payload context).1)
            :: net.onTheWay
          sent := (storeBody request.payload).toList ++ net.sent }
  /-- Something else comes in at a node. -/
  | arrived {net : Net A} {c : Contact} {context : Context A} {arrival : Arrival}
      (hc : c ∈ cluster.nodes) (hnode : net.nodes c.address = some context)
      (hgenuine : cluster.Genuine net.sent arrival) :
      Step me inFlight net { net with
        nodes := Function.update net.nodes c.address
          (some (HandleRpc.serve cluster.crypto context arrival).2) }
  /-- A node hears of another by a call of its own. -/
  | heard {net : Net A} {c c' : Contact} {context : Context A} (hc : c ∈ cluster.nodes)
      (hc' : c' ∈ cluster.nodes) (hnode : net.nodes c.address = some context) :
      Step me inFlight net { net with
        nodes := Function.update net.nodes c.address (some (context.learn c')) }

/-- How a call ends: with its reply, or refused. -/
def outcome : Option (List UInt8) → Except ErrorKind (List UInt8)
  | some reply => .ok reply
  | none => .error .other

/-- **A call completes**: of the replies on their way those for calls in flight
are left, the network goes on, and one of the replies is taken. Which one is
not determined. What is assumed is that there is one: no call of a client is
lost for good. -/
def Settles (me : Contact) (inFlight : List Request) (net : Net A) (i : ℕ)
    (result : Except ErrorKind (List UInt8)) (net' : Net A) : Prop :=
  ∃ request reply net₁, inFlight[i % inFlight.length]? = some request
    ∧ Relation.ReflTransGen (cluster.Step me inFlight)
      { net with onTheWay := net.onTheWay.filter (fun p => p.1 ∈ inFlight) } net₁
    ∧ (request, reply) ∈ net₁.onTheWay ∧ result = outcome reply
    ∧ net' = { net₁ with onTheWay := net₁.onTheWay.erase (request, reply) }

/-! ## Sound nodes

With its table at rest, all that a node does about a call is what the handler
does. So soundness comes down to what it stores. -/

/-- **A node in order**: it is who it is known as, its table is at rest, and what
it stores is in order. -/
structure Sound (c : Contact) (context : Context A) : Prop where
  /-- It has its id. -/
  myId : context.myId = c.id
  /-- Its table is at rest. -/
  table : Steady cluster.nodes c.id context.closeNodes
  /-- What it stores is in order. -/
  values : Stored cluster.crypto cluster.bodies context.values
  /-- It asks the DNS there is. -/
  dns : context.dns = cluster.dns

/-- What is stored gives way only to what follows it. -/
def Succeeds (values values' : Values) : Prop :=
  ∀ key value, values key = some value →
    ∃ later, values' key = some later ∧ Follows cluster.crypto cluster.bodies value later

variable {cluster} {c : Contact} {context : Context A}

theorem Succeeds.refl (values : Values) : cluster.Succeeds values values :=
  fun _ value hv => ⟨value, hv, Follows.refl value⟩

theorem Succeeds.trans {values values' values'' : Values} (h : cluster.Succeeds values values')
    (hstored : Stored cluster.crypto cluster.bodies values')
    (h' : cluster.Succeeds values' values'') : cluster.Succeeds values values'' := by
  intro key value hv
  obtain ⟨next, hnext, hfollows⟩ := h key value hv
  obtain ⟨later, hlater, hfollows'⟩ := h' key next hnext
  exact ⟨later, hlater, hfollows.trans (hstored.holds key next hnext) hfollows'⟩

/-- **A sound node learns nothing new**: every node is known, or has no place. -/
theorem Sound.learn_eq (h : cluster.Sound c context) {c' : Contact} (hc' : c' ∈ cluster.nodes) :
    context.learn c' = context := by
  unfold Context.learn
  rw [h.table.offer c' hc']

theorem Sound.answers (h : cluster.Sound c context) : RpcCall.Answers context :=
  ⟨h.table.length_le, h.values.serialize⟩

/-- **A call to a sound node comes to what its handler answers.** -/
theorem Sound.answer_framed (h : cluster.Sound c context) {me : Contact}
    (hme : me ∈ cluster.nodes) (method : Method) (body : List UInt8) :
    answer cluster.crypto me.address (framed me.id method body) context
      = route cluster.crypto context method body := by
  rw [Kademlia.answer_framed]
  split
  · rw [show (⟨me.id, me.address⟩ : Contact) = me from rfl, h.learn_eq hme]
  · rfl

/-- A handler leaves a node sound, and what is stored is followed. -/
theorem Sound.route (h : cluster.Sound c context) (method : Method) {body : List UInt8}
    (hbody : method = .store → body ∈ cluster.bodies) :
    cluster.Sound c (route cluster.crypto context method body).2
      ∧ cluster.Succeeds context.values
        (HandleRpc.route cluster.crypto context method body).2.values := by
  by_cases hmethod : method = .store
  · subst hmethod
    obtain ⟨hstored, hlater⟩ :=
      h.values.handle cluster.injOn_sha256 context.dns (hbody rfl)
    exact ⟨⟨h.myId, h.table, hstored, h.dns⟩, hlater⟩
  · rw [route_of_ne hmethod]
    exact ⟨h, Succeeds.refl _⟩

/-! ## Healthy networks

What a network in order keeps is in its state, replies on their way included.
It cannot be told by looking at a node that a reply was right when it was
given; so that is kept with the reply. -/

/-- A reply that was given by a sound node, of which `N` held then: it is its
handler's. -/
def Given (A : Type) [CloseNodes A] (cluster : Cluster) (N : Contact → Values → Prop)
    (p : Request × Option (List UInt8)) : Prop :=
  ∃ c ∈ cluster.nodes, p.1.peer = c.address ∧ ∃ context : Context A,
    cluster.Sound c context ∧ N c context.values
      ∧ ∃ sender method body, p.1.payload = framed sender method body
        ∧ p.2 = (route cluster.crypto context method body).1

theorem Given.mono {N N' : Contact → Values → Prop} {p : Request × Option (List UInt8)}
    (h : Given A cluster N p) (hN : ∀ c values, N c values → N' c values) :
    Given A cluster N' p := by
  obtain ⟨c, hc, hpeer, context, hsound, hcontext, hreply⟩ := h
  exact ⟨c, hc, hpeer, context, hsound, hN c _ hcontext, hreply⟩

/-- A node keeps what it acknowledged: what a reply on its way says is stored. -/
def Keeps (net : Net A) (p : Request × Option (List UInt8)) : Prop :=
  ∀ sender body request, p.1.payload = framed sender .store body →
    deserialize body = some request → p.2 = some stored →
      ∃ context later, net.nodes p.1.peer = some context
        ∧ context.values (StoreRequest.key request) = some later
        ∧ Follows cluster.crypto cluster.bodies (StoreRequest.value request) later

variable (cluster) in
/-- **A network in order.** -/
structure Healthy (net : Net A) : Prop where
  /-- Every node is there, and sound. -/
  node : ∀ c ∈ cluster.nodes, ∃ context, net.nodes c.address = some context
    ∧ cluster.Sound c context
  /-- What was sent is known. -/
  sent : ∀ body ∈ net.sent, body ∈ cluster.bodies
  /-- A reply on its way was given by a sound node. -/
  given : ∀ p ∈ net.onTheWay, Given A cluster (fun _ _ => True) p
  /-- What it acknowledges is kept. -/
  keeps : ∀ p ∈ net.onTheWay, cluster.Keeps net p

variable {net net' : Net A}

/-- At an address there is one node. -/
theorem Healthy.eq_of_address (h : cluster.Healthy net) {c c' : Contact} (hc : c ∈ cluster.nodes)
    (hc' : c' ∈ cluster.nodes) (haddress : c.address = c'.address) : c = c' := by
  obtain ⟨context, hnode, hsound⟩ := h.node c hc
  obtain ⟨context', hnode', hsound'⟩ := h.node c' hc'
  rw [haddress, hnode'] at hnode
  cases hnode
  exact cluster.injOn_id hc hc' (hsound.myId.symm.trans hsound'.myId)

/-- The node at an address is sound. -/
theorem Healthy.sound (h : cluster.Healthy net) (hc : c ∈ cluster.nodes)
    (hnode : net.nodes c.address = some context) : cluster.Sound c context := by
  obtain ⟨context', hnode', hsound⟩ := h.node c hc
  cases hnode.symm.trans hnode'
  exact hsound

/-- Replies may get lost. -/
theorem Healthy.of_subset (h : cluster.Healthy net) {l : List (Request × Option (List UInt8))}
    (hl : l ⊆ net.onTheWay) : cluster.Healthy { net with onTheWay := l } :=
  ⟨h.node, h.sent, fun p hp => h.given p (hl hp), fun p hp => h.keeps p (hl hp)⟩

/-- **A node that goes on to be sound keeps a network in order**, if what it stores
is followed. -/
theorem Healthy.update (h : cluster.Healthy net) (hc : c ∈ cluster.nodes)
    (hnode : net.nodes c.address = some context) {context' : Context A}
    (hsound : cluster.Sound c context') (hlater : cluster.Succeeds context.values context'.values) :
    cluster.Healthy
      { net with nodes := Function.update net.nodes c.address (some context') } := by
  refine ⟨fun x hx => ?_, h.sent, h.given, fun p hp sender body request hpayload hdec hack => ?_⟩
  · by_cases haddress : x.address = c.address
    · obtain rfl := h.eq_of_address hx hc haddress
      exact ⟨context', Function.update_self .., hsound⟩
    · obtain ⟨context₁, hnode₁, hsound₁⟩ := h.node x hx
      exact ⟨context₁, (Function.update_of_ne haddress ..).trans hnode₁, hsound₁⟩
  · obtain ⟨context₁, value, hnode₁, hvalue, hfollows⟩ :=
      h.keeps p hp sender body request hpayload hdec hack
    by_cases haddress : p.1.peer = c.address
    · rw [haddress, hnode] at hnode₁
      cases hnode₁
      obtain ⟨later, hv, hfollows'⟩ := hlater _ _ hvalue
      have hholds := (h.sound hc hnode).values.holds _ _ hvalue
      exact ⟨context', later, by rw [haddress]; exact Function.update_self .., hv,
        hfollows.trans hholds hfollows'⟩
    · exact ⟨context₁, value, (Function.update_of_ne haddress ..).trans hnode₁, hvalue, hfollows⟩

/-- **The calls a client may have in flight**: to nodes, and what they store is
allowed. -/
def Addressed (cluster : Cluster) (allowed : Set (List UInt8)) (me : Contact)
    (inFlight : List Request) : Prop :=
  ∀ request ∈ inFlight, ∃ c ∈ cluster.nodes, ∃ method body,
    request = ⟨c.address, framed me.id method body⟩ ∧ (method = .store → body ∈ allowed)

theorem Addressed.mono {allowed allowed' : Set (List UInt8)} {me : Contact}
    {inFlight : List Request} (h : cluster.Addressed allowed me inFlight)
    (hsub : allowed ⊆ allowed') : cluster.Addressed allowed' me inFlight := by
  intro request hrequest
  obtain ⟨c, hc, method, body, heq, hbody⟩ := h request hrequest
  exact ⟨c, hc, method, body, heq, fun hmethod => hsub (hbody hmethod)⟩

variable (cluster) in
/-- **What a step comes to where nodes are sound.** -/
inductive Move (me : Contact) (inFlight : List Request) : Net A → Net A → Prop
  /-- A call in flight is answered by its handler. -/
  | call {net : Net A} {c : Contact} {context : Context A} {method : Method} {body : List UInt8}
      (hc : c ∈ cluster.nodes) (hnode : net.nodes c.address = some context)
      (hasked : ⟨c.address, framed me.id method body⟩ ∈ inFlight) :
      Move me inFlight net
        { nodes := Function.update net.nodes c.address
            (some (HandleRpc.route cluster.crypto context method body).2)
          onTheWay := (⟨c.address, framed me.id method body⟩,
            (HandleRpc.route cluster.crypto context method body).1) :: net.onTheWay
          sent := (if method = .store then [body] else []) ++ net.sent }
  /-- Something is stored that was sent before, or is of others. -/
  | store {net : Net A} {c : Contact} {context : Context A} {body : List UInt8}
      (hc : c ∈ cluster.nodes) (hnode : net.nodes c.address = some context)
      (hbody : body ∈ net.sent ∨ body ∈ cluster.foreign) :
      Move me inFlight net { net with
        nodes := Function.update net.nodes c.address
          (some (HandleRpc.route cluster.crypto context .store body).2) }
  /-- Nothing changes. -/
  | idle {net : Net A} : Move me inFlight net net

/-- What leaves a node as it is leaves the network as it is. -/
theorem Move.of_eq {me : Contact} {inFlight : List Request}
    (hnode : net.nodes c.address = some context) {context' : Context A}
    (heq : context' = context) :
    cluster.Move me inFlight net
      { net with nodes := Function.update net.nodes c.address (some context') } := by
  rw [heq, ← hnode, Function.update_eq_self]
  exact .idle

/-- **A sound node learns nobody new**, so a step is a call or a store. Every
later proof about steps has these cases only. -/
theorem Healthy.move (h : cluster.Healthy net) {me : Contact} (hme : me ∈ cluster.nodes)
    {allowed : Set (List UInt8)} {inFlight : List Request}
    (hflight : cluster.Addressed allowed me inFlight) (hstep : cluster.Step me inFlight net net') :
    cluster.Move me inFlight net net' := by
  cases hstep with
  | @served request c context hasked hc hpeer hnode =>
    obtain ⟨c₁, hc₁, method, body, rfl, -⟩ := hflight request hasked
    obtain rfl : c₁ = c := h.eq_of_address hc₁ hc hpeer
    rw [(h.sound hc hnode).answer_framed hme, storeBody_framed]
    have hsent : (if method = .store then some body else none).toList
        = if method = .store then [body] else [] := by split <;> rfl
    rw [hsent]
    exact .call hc hnode hasked
  | @arrived c context arrival hc hnode hgenuine =>
    have hmet : context.met arrival.learned = context := by
      cases hlearned : arrival.learned with
      | none => rfl
      | some c' => exact (h.sound hc hnode).learn_eq (hgenuine.learned c' hlearned)
    rcases serve_cases (A := A) cluster.crypto arrival with
      ⟨-, -, hserve⟩ | ⟨id, sender, method, body, hparsed, hserve⟩
    · exact .of_eq hnode (by rw [hserve])
    · rw [hserve, hmet]
      by_cases hmethod : method = .store
      · subst hmethod
        exact .store hc hnode (hgenuine.store sender body hparsed)
      · exact .of_eq hnode (route_of_ne hmethod body)
  | @heard c c' context hc hc' hnode =>
    exact .of_eq hnode ((h.sound hc hnode).learn_eq hc')

/-- A value acknowledged is in its slot. -/
theorem route_store_stored {body : List UInt8} {request : StoreRequest}
    (hdec : deserialize body = some request)
    (hack : (route cluster.crypto context .store body).1 = some stored) :
    (route cluster.crypto context .store body).2.values request.key = some request.value := by
  have hreply : (handle cluster.crypto context.dns context.values body).1 = some stored := hack
  show (handle cluster.crypto context.dns context.values body).2 request.key = _
  rcases handle_cases cluster.crypto context.dns context.values body with
    heq | ⟨request', hdec', heq, -⟩
  · rw [heq] at hreply
    cases hreply
  · cases hdec.symm.trans hdec'
    rw [heq]
    exact Function.update_self ..

/-- **Whatever happens, the network stays in order.** A handler leaves its node
sound, what it stores is followed, and its reply is one that a sound node
gives; what it acknowledges is in its slot at that moment, and is followed
there ever after. -/
theorem Healthy.step (h : cluster.Healthy net) {me : Contact} (hme : me ∈ cluster.nodes)
    {inFlight : List Request} (hflight : cluster.Addressed cluster.bodies me inFlight)
    (hstep : cluster.Step me inFlight net net') : cluster.Healthy net' := by
  cases h.move hme hflight hstep with
  | idle => exact h
  | @store c context body hc hnode hbody =>
    have hbody' : body ∈ cluster.bodies :=
      hbody.elim (h.sent body) fun hforeign => cluster.foreign_subset hforeign
    obtain ⟨hsound, hlater⟩ := (h.sound hc hnode).route .store fun _ => hbody'
    exact h.update hc hnode hsound hlater
  | @call c context method body hc hnode hasked =>
    obtain ⟨c₁, -, method₁, body₁, heq, hbody⟩ := hflight _ hasked
    obtain ⟨-, rfl, rfl⟩ := framed_inj (congrArg Request.payload heq)
    have hsound := h.sound hc hnode
    obtain ⟨hsound', hlater⟩ := hsound.route method hbody
    have hupdate := h.update hc hnode hsound' hlater
    refine ⟨hupdate.node, fun b hb => ?_, fun p hp => ?_, fun p hp => ?_⟩
    · rcases List.mem_append.mp hb with hb | hb
      · split at hb
        · next hmethod => exact List.mem_singleton.mp hb ▸ hbody hmethod
        · exact absurd hb List.not_mem_nil
      · exact h.sent b hb
    · rcases List.mem_cons.mp hp with rfl | hp
      · exact ⟨c, hc, rfl, context, hsound, trivial, me.id, method, body, rfl, rfl⟩
      · exact h.given p hp
    · rcases List.mem_cons.mp hp with rfl | hp
      · intro sender body' request' hpayload hdec hack
        obtain ⟨-, rfl, rfl⟩ := framed_inj hpayload
        exact ⟨_, _, Function.update_self .., route_store_stored hdec hack, Follows.refl _⟩
      · exact hupdate.keeps p hp

/-! ## Clients

A client runs its program against the network. Between two of its own steps the
network may take any number, and other tasks of the client may offer nodes to
its table. A property of the network that survives all of that (`Kept`) holds
whenever the client looks. -/

variable (cluster) in
/-- What other tasks of a client do to its table: they offer nodes. -/
def Offered (table table' : A) : Prop :=
  ∃ contacts : List Contact, (∀ c ∈ contacts, c ∈ cluster.nodes)
    ∧ table' = contacts.foldl CloseNodes.maybeAddContact table

/-- A table at rest stays as it is. -/
theorem Offered.eq {table table' : A} {myId : NodeId} (h : cluster.Offered table table')
    (hsteady : Steady cluster.nodes myId table) : table' = table := by
  obtain ⟨contacts, hnodes, rfl⟩ := h
  induction contacts with
  | nil => rfl
  | cons c contacts ih =>
    rw [List.foldl_cons, hsteady.offer c (hnodes c List.mem_cons_self)]
    exact ih fun x hx => hnodes x (List.mem_cons_of_mem c hx)

variable (cluster) in
/-- **A client of the network**: it is one of the nodes, its calls complete as the
network has it, and DNS answers. -/
structure Honest (rpc : Rpc A (Net A)) : Prop where
  /-- The client is a node. -/
  mem : rpc.myContact ∈ cluster.nodes
  /-- A call in flight completes. -/
  settle : ∀ (world : World A (Net A)) (inFlight : List Request), cluster.Healthy world.net →
    cluster.Addressed cluster.bodies rpc.myContact inFlight → inFlight ≠ [] →
      cluster.Settles rpc.myContact inFlight world.net (rpc.outside.settle world inFlight).1
          (rpc.outside.settle world inFlight).2.1 (rpc.outside.settle world inFlight).2.2.net
        ∧ cluster.Offered world.table (rpc.outside.settle world inFlight).2.2.table
  /-- DNS answers, while the network goes on. -/
  dns : ∀ (world : World A (Net A)) (domain : String), cluster.Healthy world.net →
    (rpc.outside.getDnsVk world domain).1 = cluster.dns domain
      ∧ Relation.ReflTransGen (cluster.Step rpc.myContact []) world.net
          (rpc.outside.getDnsVk world domain).2.net
      ∧ cluster.Offered world.table (rpc.outside.getDnsVk world domain).2.table

variable (cluster) in
/-- **What holds of a network while calls are in flight**: it includes that the
network is in order, and neither a step nor the loss of a reply ends it. -/
structure Kept (me : Contact) (inFlight : List Request) (Inv : Net A → Prop) : Prop where
  /-- The network is in order. -/
  healthy : ∀ net, Inv net → cluster.Healthy net
  /-- A step keeps it. -/
  step : ∀ net net', Inv net → cluster.Step me inFlight net net' → Inv net'
  /-- The loss of replies keeps it. -/
  lose : ∀ net l, Inv net → l ⊆ net.onTheWay → Inv { net with onTheWay := l }

variable {Inv : Net A → Prop} {me : Contact} {inFlight : List Request}

theorem Kept.steps (h : cluster.Kept me inFlight Inv) (hnet : Inv net)
    (hsteps : Relation.ReflTransGen (cluster.Step me inFlight) net net') : Inv net' := by
  induction hsteps with
  | refl => exact hnet
  | tail _ hstep ih => exact h.step _ _ ih hstep

variable (cluster) in
/-- **No request that is allowed ends a property of what nodes store.** -/
def Stable (allowed : Set (List UInt8)) (M : Contact → Values → Prop) : Prop :=
  ∀ c ∈ cluster.nodes, ∀ values, Stored cluster.crypto cluster.bodies values → M c values →
    ∀ body, body ∈ allowed ∨ body ∈ cluster.foreign →
      M c (handle cluster.crypto cluster.dns values body).2

/-- Properties are stable together. -/
theorem Stable.and {allowed : Set (List UInt8)} {M M' : Contact → Values → Prop}
    (h : cluster.Stable allowed M) (h' : cluster.Stable allowed M') :
    cluster.Stable allowed (fun c values => M c values ∧ M' c values) :=
  fun c hc values hstored hM body hbody =>
    ⟨h c hc values hstored hM.1 body hbody, h' c hc values hstored hM.2 body hbody⟩

variable (cluster) in
/-- **A network in order, in which what nodes store has the property `M`**, and
had the property `N` when they replied. -/
structure Upholds (allowed : Set (List UInt8)) (N M : Contact → Values → Prop) (net : Net A) :
    Prop where
  /-- The network is in order. -/
  healthy : cluster.Healthy net
  /-- What was sent is allowed. -/
  sent : ∀ body ∈ net.sent, body ∈ allowed
  /-- What nodes store has the property. -/
  values : ∀ c ∈ cluster.nodes, ∀ context, net.nodes c.address = some context →
    M c context.values
  /-- A reply on its way was given by a sound node, of which `N` held. -/
  given : ∀ p ∈ net.onTheWay, Given A cluster N p

variable {allowed : Set (List UInt8)} {N M : Contact → Values → Prop}

/-- A node that goes on to have the property. -/
theorem Upholds.values_update (h : cluster.Upholds allowed N M net) (hc : c ∈ cluster.nodes)
    {context' : Context A} (hM : M c context'.values) {x : Contact} (hx : x ∈ cluster.nodes)
    {context₁ : Context A}
    (hnode : Function.update net.nodes c.address (some context') x.address = some context₁) :
    M x context₁.values := by
  by_cases haddress : x.address = c.address
  · obtain rfl := h.healthy.eq_of_address hx hc haddress
    rw [Function.update_self] at hnode
    cases hnode
    exact hM
  · rw [Function.update_of_ne haddress] at hnode
    exact h.values x hx context₁ hnode

/-- **A stable property holds in every state.** By the cases of a step: a call
to a handler, of which only stores change anything, and those are allowed; a
store of what was sent before, which was allowed then; and nothing. -/
theorem kept_upholds (hme : me ∈ cluster.nodes) (hallowed : allowed ⊆ cluster.bodies)
    (hstable : cluster.Stable allowed M) (hMN : ∀ c values, M c values → N c values)
    (hflight : cluster.Addressed allowed me inFlight) :
    cluster.Kept (A := A) me inFlight (cluster.Upholds allowed N M) := by
  refine ⟨fun _ h => h.healthy, fun net net' h hstep => ?_, fun net l h hl =>
    ⟨h.healthy.of_subset hl, h.sent, h.values, fun p hp => h.given p (hl hp)⟩⟩
  have hhealthy := h.healthy.step hme (hflight.mono hallowed) hstep
  cases h.healthy.move hme hflight hstep with
  | idle => exact h
  | @store c context body hc hnode hbody =>
    have hsound := h.healthy.sound hc hnode
    refine ⟨hhealthy, h.sent, fun x hx context₁ => h.values_update hc ?_ hx, h.given⟩
    show M c (handle cluster.crypto context.dns context.values body).2
    rw [hsound.dns]
    exact hstable c hc _ hsound.values (h.values c hc context hnode) body
      (hbody.imp_left (h.sent body))
  | @call c context method body hc hnode hasked =>
    obtain ⟨c₁, -, method₁, body₁, heq, hbody⟩ := hflight _ hasked
    obtain ⟨-, rfl, rfl⟩ := framed_inj (congrArg Request.payload heq)
    have hsound := h.healthy.sound hc hnode
    have hM := h.values c hc context hnode
    refine ⟨hhealthy, fun b hb => ?_, fun x hx context₁ => h.values_update hc ?_ hx, fun p hp => ?_⟩
    · rcases List.mem_append.mp hb with hb | hb
      · split at hb
        · next hmethod => exact List.mem_singleton.mp hb ▸ hbody hmethod
        · exact absurd hb List.not_mem_nil
      · exact h.sent b hb
    · by_cases hmethod : method = .store
      · subst hmethod
        show M c (handle cluster.crypto context.dns context.values body).2
        rw [hsound.dns]
        exact hstable c hc _ hsound.values hM body (Or.inl (hbody rfl))
      · rw [route_of_ne hmethod]
        exact hM
    · rcases List.mem_cons.mp hp with rfl | hp
      · exact ⟨c, hc, rfl, context, hsound, hMN c _ hM, me.id, method, body, rfl, rfl⟩
      · exact h.given p hp

section Next

variable {rpc : Rpc A (Net A)} {method : Method} {body : List UInt8} {asked : List Contact}
  {world : World A (Net A)}

omit [CloseNodes A] in
/-- Calls to nodes are addressed. -/
theorem addressed_request (rpc : Rpc A (Net A)) (hasked : ∀ c ∈ asked, c ∈ cluster.nodes)
    {allowed : Set (List UInt8)} (hbody : method = .store → body ∈ allowed) :
    cluster.Addressed allowed rpc.myContact (asked.map (rpc.request method body)) := by
  intro request hrequest
  obtain ⟨c, hc, rfl⟩ := List.mem_map.mp hrequest
  exact ⟨c, hasked c hc, method, body, rfl, hbody⟩

/-- The reply is taken as it is: a refusal does not say that the peer is gone. -/
theorem next_of_outcome {contact : Contact} {reply : Option (List UInt8)}
    (hget : asked[(rpc.outside.settle world (asked.map (rpc.request method body))).1
      % asked.length]? = some contact)
    (hresult : (rpc.outside.settle world (asked.map (rpc.request method body))).2.1
      = outcome reply) :
    rpc.next method body asked world = some ((contact, reply),
      asked.eraseIdx ((rpc.outside.settle world (asked.map (rpc.request method body))).1
        % asked.length),
      (rpc.outside.settle world (asked.map (rpc.request method body))).2.2) := by
  unfold Rpc.next
  dsimp only
  rw [hget, hresult]
  cases reply <;> rfl

/-- **The next call of a client completes**: its reply was on its way, and the
client's table is as it was. A refusal is an answer as well, and does not have
the client forget the peer. -/
theorem Honest.next (h : cluster.Honest rpc) (hne : asked ≠ [])
    (hasked : ∀ c ∈ asked, c ∈ cluster.nodes) (hbody : method = .store → body ∈ cluster.bodies)
    (hkept : cluster.Kept rpc.myContact (asked.map (rpc.request method body)) Inv)
    (hnet : Inv world.net) {myId : NodeId} (htable : Steady cluster.nodes myId world.table) :
    ∃ contact reply rest world' net₁,
      rpc.next method body asked world = some ((contact, reply), rest, world')
        ∧ world'.table = world.table ∧ Inv world'.net
        ∧ Inv net₁ ∧ net₁.nodes = world'.net.nodes
        ∧ (rpc.request method body contact, reply) ∈ net₁.onTheWay := by
  obtain ⟨hsettles, hoffered⟩ := h.settle world (asked.map (rpc.request method body))
    (hkept.healthy _ hnet) (addressed_request rpc hasked hbody) (by simpa using hne)
  obtain ⟨request, reply, net₁, hget, hsteps, hmem, hresult, hnet'⟩ := hsettles
  rw [List.length_map, List.getElem?_map, Option.map_eq_some_iff] at hget
  obtain ⟨contact, hget, rfl⟩ := hget
  have hnet₁ : Inv net₁ :=
    hkept.steps (hkept.lose _ _ hnet fun _ hp => List.mem_of_mem_filter hp) hsteps
  refine ⟨contact, reply, _, _, net₁, next_of_outcome hget hresult, hoffered.eq htable, ?_,
    hnet₁, ?_, hmem⟩
  · rw [hnet']
    exact hkept.lose _ _ hnet₁ List.erase_subset
  · rw [hnet']

end Next

/-! ## What comes later

Clients come one after another, each with calls of its own. What one of them
may rely on is what holds in all that comes later. -/

variable (cluster) in
/-- **One state of a network comes after another**: clients are served that store
what is allowed, things come in, and replies get lost. -/
inductive Later (allowed : Set (List UInt8)) (net : Net A) : Net A → Prop
  /-- Nothing happens. -/
  | refl : Later allowed net net
  /-- Something happens while calls of some client are in flight. -/
  | step {net₁ net₂ : Net A} {me : Contact} {inFlight : List Request}
      (hlater : Later allowed net net₁) (hme : me ∈ cluster.nodes)
      (hflight : cluster.Addressed allowed me inFlight)
      (hstep : cluster.Step me inFlight net₁ net₂) : Later allowed net net₂
  /-- Replies get lost. -/
  | lose {net₁ : Net A} {l : List (Request × Option (List UInt8))}
      (hlater : Later allowed net net₁) (hl : l ⊆ net₁.onTheWay) :
      Later allowed net { net₁ with onTheWay := l }

theorem Later.mono {allowed allowed' : Set (List UInt8)} (h : cluster.Later allowed net net')
    (hsub : allowed ⊆ allowed') : cluster.Later allowed' net net' := by
  induction h with
  | refl => exact .refl
  | step _ hme hflight hstep ih => exact .step ih hme (hflight.mono hsub) hstep
  | lose _ hl ih => exact .lose ih hl

theorem later_quiet (allowed : Set (List UInt8)) (net : Net A) :
    cluster.Later allowed net net.quiet := .lose .refl (List.nil_subset _)

/-- A stable property holds ever after. -/
theorem Upholds.later (h : cluster.Upholds allowed N M net) (hallowed : allowed ⊆ cluster.bodies)
    (hstable : cluster.Stable allowed M) (hMN : ∀ c values, M c values → N c values)
    (hlater : cluster.Later allowed net net') : cluster.Upholds allowed N M net' := by
  induction hlater with
  | refl => exact h
  | step _ hme hflight hstep ih =>
    exact (kept_upholds hme hallowed hstable hMN hflight).step _ _ ih hstep
  | lose _ hl ih =>
    exact ⟨ih.healthy.of_subset hl, ih.sent, ih.values, fun p hp => ih.given p (hl hp)⟩

/-! ## Networks there are

That there are such networks is shown by one that serves calls at once, with
nodes that have heard of each other. -/

section Prompt

variable (crypto : Crypto) (dns : String → Option VerifyingKey) (me : Contact)

/-- A network that serves the first call in flight at once. -/
def prompt : Outside A (Net A) where
  settle world inFlight :=
    match inFlight with
    | [] => (0, .error .other, world)
    | request :: _ =>
      match world.net.nodes request.peer with
      | none => (0, .error .connectionRefused, world)
      | some context =>
        let (reply, context) := answer crypto me.address request.payload context
        (0, outcome reply, { world with net :=
          { nodes := Function.update world.net.nodes request.peer (some context)
            onTheWay := world.net.onTheWay.filter (fun p => p.1 ∈ inFlight)
            sent := (storeBody request.payload).toList ++ world.net.sent } })
  getDnsVk world domain := (dns domain, world)

variable {me}

/-- A call completes in it. -/
theorem settles_prompt {world : World A (Net A)} {inFlight : List Request} (hne : inFlight ≠ [])
    (hnode : ∀ request ∈ inFlight, ∃ c ∈ cluster.nodes, request.peer = c.address
      ∧ ∃ context, world.net.nodes c.address = some context) :
    cluster.Settles me inFlight world.net
        ((prompt cluster.crypto dns me).settle world inFlight).1
        ((prompt cluster.crypto dns me).settle world inFlight).2.1
        ((prompt cluster.crypto dns me).settle world inFlight).2.2.net
      ∧ cluster.Offered world.table
        ((prompt cluster.crypto dns me).settle world inFlight).2.2.table := by
  obtain ⟨request, rest, rfl⟩ := List.exists_cons_of_ne_nil hne
  obtain ⟨c, hc, hpeer, context, hnode⟩ := hnode request List.mem_cons_self
  have hserve : cluster.Step me (request :: rest)
      { world.net with onTheWay := world.net.onTheWay.filter (fun p => p.1 ∈ request :: rest) } _ :=
    Step.served List.mem_cons_self hc hpeer hnode
  unfold prompt
  dsimp only
  rw [hpeer, hnode]
  refine ⟨⟨request, _, _, ?_, .single hserve, List.mem_cons_self, rfl, ?_⟩,
    [], fun c hc => absurd hc List.not_mem_nil, rfl⟩
  · rw [Nat.zero_mod]
    rfl
  · dsimp only
    rw [List.erase_cons_head]

/-- Its nodes are clients. -/
theorem honest_prompt (hme : me ∈ cluster.nodes) :
    cluster.Honest (⟨me, prompt cluster.crypto cluster.dns me⟩ : Rpc A (Net A)) := by
  refine ⟨hme, fun world inFlight hhealthy hflight hne =>
    settles_prompt _ hne fun request hasked => ?_,
    fun world domain _ => ⟨rfl, .refl, [], fun c hc => absurd hc List.not_mem_nil, rfl⟩⟩
  obtain ⟨c, hc, method, body, rfl, -⟩ := hflight request hasked
  obtain ⟨context, hnode, -⟩ := hhealthy.node c hc
  exact ⟨c, hc, rfl, context, hnode⟩

end Prompt

/-- Of contacts with distinct addresses, each is found by its own. -/
theorem find?_address {members : List Contact} (haddress : (members.map Contact.address).Nodup)
    (hc : c ∈ members) : members.find? (fun x => x.address = c.address) = some c := by
  have hsome : (members.find? (fun x => x.address = c.address)).isSome = true :=
    List.find?_isSome.mpr ⟨c, hc, decide_eq_true rfl⟩
  obtain ⟨x, hx⟩ := Option.isSome_iff_exists.mp hsome
  have hx' := List.find?_some hx
  rw [hx, List.inj_on_of_nodup_map haddress (List.mem_of_find?_eq_some hx) hc
    (of_decide_eq_true hx')]

/-- A network that was just set up: its nodes have heard of each other, and store
nothing. -/
def fresh (dns : String → Option VerifyingKey) (members : List Contact) : Net Table where
  nodes address := (members.find? (fun c => c.address = address)).map (fun c =>
    ⟨c.id, Table.run c.id (members.map TableOp.maybeAdd), fun _ => none, dns⟩)
  onTheWay := []
  sent := []

/-- It is in order. -/
theorem healthy_fresh {members : List Contact} (hnodes : cluster.nodes = {c | c ∈ members})
    (haddress : (members.map Contact.address).Nodup) :
    cluster.Healthy (fresh cluster.dns members) := by
  have hids : Set.InjOn Contact.id {c | c ∈ members} := hnodes ▸ cluster.injOn_id
  refine ⟨fun c hc => ?_, fun _ hb => absurd hb List.not_mem_nil,
    fun _ hp => absurd hp List.not_mem_nil, fun _ hp => absurd hp List.not_mem_nil⟩
  rw [hnodes] at hc
  refine ⟨⟨c.id, Table.run c.id (members.map TableOp.maybeAdd), fun _ => none, cluster.dns⟩,
    congrArg (Option.map _) (find?_address haddress hc), rfl, ?_,
    ⟨fun _ _ hv => (by cases hv), fun _ _ hv => (by cases hv)⟩, rfl⟩
  have hsteady := (Table.converged_run c.id hids).steady hids
    (by rw [Table.run_maybeAdd_myId]; exact ⟨c, hc, rfl⟩)
  rw [Table.run_maybeAdd_myId] at hsteady
  exact hnodes ▸ hsteady

end Cluster

end Kademlia
