import Kademlia.Framing
import Kademlia.Pending
import Kademlia.Store
import Kademlia.Table

/-!
# Answering calls

A node answers four calls. A request is taken apart into who sent it, which
method it asks for and a body; the handler of the method decodes the body and
answers; the answer goes back under the id of the request. A sender is learned
as a contact where the request came in a datagram, as only then is the address
it came from one it can be reached at.

The two halves are written apart: the client puts a request together, the
transports frame it, the server takes it apart, and the same again on the way
back. `RpcCall.wire_agrees` puts them against each other. A request without a
length anywhere is read back since its front has a fixed length and no tag
starts another; the reply is matched since its id is the request's with the top
bit set. Pings and node queries go in datagrams, of which 1024 bytes are
received: ten contacts take 548 at most, and with the id 556.
-/

namespace Kademlia

namespace HandleRpc

/-- What a handler sees of its node. -/
structure Context (A : Type) where
  /-- Who we are. -/
  myId : NodeId
  /-- The routing table. -/
  closeNodes : A
  /-- What we store. -/
  values : Values
  /-- The keys of domains. -/
  dns : String → Option VerifyingKey

variable {A : Type} [CloseNodes A]

/-- Offer a contact to the routing table. -/
def Context.learn (context : Context A) (contact : Contact) : Context A :=
  { context with closeNodes := CloseNodes.maybeAddContact context.closeNodes contact }

omit [CloseNodes A] in
/-- Answer a ping with our id, whatever its body. -/
def Ping.handle (context : Context A) (_body : List UInt8) : Option (List UInt8) :=
  serialize context.myId

/-- Answer a node query with the contacts nearest to the target. -/
def FindNode.handle (context : Context A) (body : List UInt8) : Option (List UInt8) :=
  match (deserialize body : Option NodeId) with
  | none => none
  | some target => serialize (CloseNodes.closeNodes context.closeNodes target)

/-- What there is to say about a key: the value stored under it, or the contacts
nearest to it. -/
def FindValue.reply (context : Context A) (key : Key) : FindValue :=
  match context.values key with
  | some value => .value value
  | none => .closest (CloseNodes.closeNodes context.closeNodes key)

/-- Answer a value query. -/
def FindValue.handle (context : Context A) (body : List UInt8) : Option (List UInt8) :=
  match (deserialize body : Option Key) with
  | none => none
  | some key => serialize (FindValue.reply context key)

variable (crypto : Crypto)

/-- Hand a body to the handler of its method. -/
def route (context : Context A) (method : Method) (body : List UInt8) :
    Option (List UInt8) × Context A :=
  match method with
  | .ping => (Ping.handle context body, context)
  | .store =>
    let (reply, values) := Kademlia.handle crypto context.dns context.values body
    (reply, { context with values := values })
  | .findNode => (FindNode.handle context body, context)
  | .findValue => (FindValue.handle context body, context)

/-- **Serve a request**: parse it, learn its sender if it can be reached, hand
it to its handler, frame the answer. -/
def dispatch (context : Context A) (request : Request) : Option (List UInt8) × Context A :=
  match parseFramed request.payload with
  | none => (none, context)
  | some (sender, method, body) =>
    let context :=
      if request.fromIsReachable then context.learn ⟨sender, request.source⟩ else context
    let (reply, context) := route crypto context method body
    (reply.map (frameReply request.id), context)

/-- A request without its id, as the client puts it together. -/
def framed (sender : NodeId) (method : Method) (body : List UInt8) : List UInt8 :=
  sender.toList ++ method.tag ++ body

variable {crypto}

/-- A framed request reaches its handler. -/
theorem dispatch_framed (context : Context A) (id : UInt64) (source : SocketAddr)
    (reachable : Bool) (sender : NodeId) (method : Method) (body : List UInt8) :
    dispatch crypto context ⟨id, source, reachable, framed sender method body⟩
      = ((route crypto (if reachable then context.learn ⟨sender, source⟩ else context) method
            body).1.map (frameReply id),
          (route crypto (if reachable then context.learn ⟨sender, source⟩ else context) method
            body).2) := by
  unfold dispatch framed
  rw [parseFramed_append]

/-! ## What a request may change

Requests come in by two ways, and anything may come in. What it can do to the
node is told by cases on the bytes once (`serve_cases`): they parse or they do
not. If they do, the node meets the sender and then the handler of one method
answers; only the handler of stores touches what is stored, and none touches
the table. -/

/-- Bytes that came in. -/
inductive Arrival where
  /-- In a datagram, from an address. -/
  | datagram (source : SocketAddr) (bytes : List UInt8)
  /-- Over a connection, dialled from an address. -/
  | connection (source : SocketAddr) (bytes : List UInt8)
deriving DecidableEq

/-- The request that came in, if it is one. -/
def Arrival.request : Arrival → Option Request
  | .datagram source bytes =>
    match inbound source bytes with
    | .request request => some request
    | _ => none
  | .connection source bytes => Request.fromConnection source bytes

/-- Who sent it, which method it asks for, and the body, if it parses. -/
def Arrival.parsed (arrival : Arrival) : Option (NodeId × Method × List UInt8) :=
  arrival.request.bind (fun request => parseFramed request.payload)

/-- The contact learned from bytes that came in: the sender, off a datagram. -/
def Arrival.learned : Arrival → Option Contact
  | .datagram source bytes =>
    (Arrival.datagram source bytes).parsed.map (fun p => ⟨p.1, source⟩)
  | .connection _ _ => none

variable (crypto) in
/-- Serve what came in. -/
def serve (context : Context A) (arrival : Arrival) : Option (List UInt8) × Context A :=
  match arrival.request with
  | none => (none, context)
  | some request => dispatch crypto context request

theorem fromDatagram_eq_some {source : SocketAddr} {bytes : List UInt8} {request : Request}
    (h : Request.fromDatagram source bytes = some request) :
    request.source = source ∧ request.fromIsReachable = true := by
  obtain ⟨p, -, rfl⟩ := Option.map_eq_some_iff.mp h
  exact ⟨rfl, rfl⟩

/-- **Only off a datagram is the sender reached where it came from.** -/
theorem Arrival.request_eq_some {arrival : Arrival} {request : Request}
    (h : arrival.request = some request) :
    arrival.learned = if request.fromIsReachable
      then (parseFramed request.payload).map (fun p => ⟨p.1, request.source⟩) else none := by
  cases arrival with
  | datagram source bytes =>
    have hreach : request.source = source ∧ request.fromIsReachable = true := by
      unfold Arrival.request at h
      dsimp only at h
      split at h
      · next r hin =>
        cases h
        unfold inbound at hin
        dsimp only at hin
        split at hin
        · cases hin
        · split at hin
          · split at hin
            · cases hin
            · next r' hr =>
              cases hin
              exact fromDatagram_eq_some hr
          · cases hin
      · cases h
    rw [hreach.2, if_pos rfl, hreach.1, Arrival.learned, Arrival.parsed, h]
    rfl
  | connection source bytes =>
    obtain ⟨r, -, rfl⟩ := Option.map_eq_some_iff.mp h
    rfl

/-- What is left of a node after a request is routed. -/
theorem route_closeNodes (context : Context A) (method : Method) (body : List UInt8) :
    (route crypto context method body).2.closeNodes = context.closeNodes := by
  cases method <;> rfl

theorem route_of_ne {context : Context A} {method : Method} (h : method ≠ .store)
    (body : List UInt8) : (route crypto context method body).2 = context := by
  cases method with
  | store => exact absurd rfl h
  | _ => rfl

/-- The node a request is routed at. -/
def Context.met (context : Context A) : Option Contact → Context A
  | none => context
  | some contact => context.learn contact

@[simp] theorem Context.met_values (context : Context A) (learned : Option Contact) :
    (context.met learned).values = context.values := by cases learned <;> rfl

@[simp] theorem Context.met_dns (context : Context A) (learned : Option Contact) :
    (context.met learned).dns = context.dns := by cases learned <;> rfl

/-- **What serving comes to**: nothing where the bytes do not parse, and else
the sender is learned and the handler answers. Whether they parse, under which
id and for which method is in the bytes alone, so one case serves every state
of the node; serving the same bytes a second time falls in the same case. -/
theorem serve_cases (crypto : Crypto) (arrival : Arrival) :
    (arrival.parsed = none ∧ arrival.learned = none
        ∧ ∀ context : Context A, serve crypto context arrival = (none, context))
      ∨ ∃ id sender method body, arrival.parsed = some (sender, method, body)
        ∧ ∀ context : Context A, serve crypto context arrival
          = ((route crypto (context.met arrival.learned) method body).1.map (frameReply id),
            (route crypto (context.met arrival.learned) method body).2) := by
  cases hreq : arrival.request with
  | none =>
    have hparsed : arrival.parsed = none := by rw [Arrival.parsed, hreq]; rfl
    refine Or.inl ⟨hparsed, ?_, fun context => by rw [serve, hreq]⟩
    cases arrival with
    | datagram source bytes => rw [Arrival.learned, hparsed]; rfl
    | connection => rfl
  | some request =>
    have hlearned := Arrival.request_eq_some hreq
    have hparsed : arrival.parsed = parseFramed request.payload := by
      rw [Arrival.parsed, hreq]
      rfl
    cases hframe : parseFramed request.payload with
    | none =>
      rw [hframe] at hparsed hlearned
      refine Or.inl ⟨hparsed, by rw [hlearned]; split <;> rfl, fun context => ?_⟩
      rw [serve, hreq]
      show dispatch crypto context request = _
      rw [dispatch, hframe]
    | some p =>
      obtain ⟨sender, method, body⟩ := p
      rw [hframe] at hparsed hlearned
      refine Or.inr ⟨request.id, sender, method, body, hparsed, fun context => ?_⟩
      rw [serve, hreq, hlearned]
      show dispatch crypto context request = _
      rw [dispatch, hframe]
      dsimp only
      cases request.fromIsReachable <;> rfl

/-- **What a request may change**: the slot of the key of an acknowledged
store, and the entry of the sender of a datagram. -/
structure Confined (crypto : Crypto) (context : Context A) (arrival : Arrival) : Prop where
  /-- Without a reply, what is stored is as it was. -/
  silent : (serve crypto context arrival).1 = none →
    (serve crypto context arrival).2.values = context.values
  /-- What is stored changes by an acknowledged store only. -/
  changed : (serve crypto context arrival).2.values ≠ context.values →
    ∃ sender body, arrival.parsed = some (sender, .store, body)
      ∧ (handle crypto context.dns context.values body).1 = some stored
  /-- An acknowledged store puts its value in the slot of its key, and does
  nothing else. -/
  acknowledged : ∀ sender body, arrival.parsed = some (sender, .store, body) →
    (handle crypto context.dns context.values body).1 = some stored →
      ∃ request : StoreRequest, deserialize body = some request
        ∧ (serve crypto context arrival).2.values
          = Function.update context.values request.key (some request.value)
  /-- Repeated, it is acknowledged again and changes nothing. -/
  repeated : ∀ sender body, arrival.parsed = some (sender, .store, body) →
    (handle crypto context.dns context.values body).1 = some stored →
      (serve crypto (serve crypto context arrival).2 arrival).1 = (serve crypto context arrival).1
        ∧ (serve crypto context arrival).1 ≠ none
        ∧ (serve crypto (serve crypto context arrival).2 arrival).2.values
          = (serve crypto context arrival).2.values
  /-- The other methods change nothing that is stored. -/
  others : ∀ sender method body, arrival.parsed = some (sender, method, body) →
    method ≠ .store → (serve crypto context arrival).2.values = context.values
  /-- A datagram that parses offers its sender to the table, at the address
  it came from, and one that does not offers nobody. -/
  datagram : ∀ source bytes, arrival = .datagram source bytes →
    (serve crypto context arrival).2.closeNodes = match arrival.parsed with
      | none => context.closeNodes
      | some (sender, _, _) => CloseNodes.maybeAddContact context.closeNodes ⟨sender, source⟩
  /-- A connection leaves the table alone. -/
  connection : ∀ source bytes, arrival = .connection source bytes →
    (serve crypto context arrival).2.closeNodes = context.closeNodes

/-- The table after serving. -/
theorem serve_closeNodes (crypto : Crypto) (context : Context A) (arrival : Arrival) :
    (serve crypto context arrival).2.closeNodes = (context.met arrival.learned).closeNodes := by
  rcases serve_cases (A := A) crypto arrival with
    ⟨-, hlearned, hserve⟩ | ⟨id, sender, method, body, -, hserve⟩
  · rw [hserve, hlearned]
    rfl
  · rw [hserve, route_closeNodes]

/-- What serving a store comes to. -/
theorem serve_store (crypto : Crypto) {arrival : Arrival} {sender : NodeId} {body : List UInt8}
    (h : arrival.parsed = some (sender, .store, body)) :
    ∃ id, ∀ context : Context A,
      (serve crypto context arrival).1
          = (handle crypto context.dns context.values body).1.map (frameReply id)
        ∧ (serve crypto context arrival).2.values
          = (handle crypto context.dns context.values body).2
        ∧ (serve crypto context arrival).2.dns = context.dns := by
  rcases serve_cases (A := A) crypto arrival with
    ⟨hnone, -⟩ | ⟨id, sender', method, body', hparsed, hserve⟩
  · cases h.symm.trans hnone
  · cases h.symm.trans hparsed
    refine ⟨id, fun context => ?_⟩
    rw [hserve]
    unfold route
    -- learning the sender changes neither what is stored nor what DNS answers
    simp [Context.met_values, Context.met_dns]

/-- What is not a store leaves what is stored as it was. -/
theorem serve_values_of_ne (crypto : Crypto) (context : Context A) {arrival : Arrival}
    (h : ∀ sender body, arrival.parsed ≠ some (sender, .store, body)) :
    (serve crypto context arrival).2.values = context.values := by
  rcases serve_cases (A := A) crypto arrival with
    ⟨-, -, hserve⟩ | ⟨id, sender, method, body, hparsed, hserve⟩
  · rw [hserve]
  · have hmethod : method ≠ .store := by
      rintro rfl
      exact h sender body hparsed
    rw [hserve, route_of_ne hmethod, Context.met_values]

/-- **What is stored changes by an acknowledged store only.** A store that is
refused leaves everything as it was, and so does a body that cannot be
decoded. -/
theorem serve_values_cases (crypto : Crypto) (context : Context A) (arrival : Arrival) :
    (serve crypto context arrival).2.values = context.values
      ∨ ∃ sender body, arrival.parsed = some (sender, .store, body)
        ∧ (handle crypto context.dns context.values body).1 = some stored := by
  by_cases h : ∃ sender body, arrival.parsed = some (sender, .store, body)
  · obtain ⟨sender, body, hp⟩ := h
    obtain ⟨id, hserve⟩ := serve_store (A := A) crypto hp
    rw [(hserve context).2.1]
    rcases handle_cases crypto context.dns context.values body with heq | ⟨_, -, heq, -⟩
    · exact Or.inl (by rw [heq])
    · exact Or.inr ⟨sender, body, hp, by rw [heq]⟩
  · exact Or.inl (serve_values_of_ne crypto context fun sender body hp => h ⟨sender, body, hp⟩)

/-- **Inbound requests change exactly what they may**, whatever the node, the
bytes and the answers of DNS. What is stored changes only in the slot of the
key of a store that is acknowledged, and is then the value of the request; sent
again, the store is acknowledged again and changes nothing, so a retry whose
first reply was lost is harmless. The table is offered the sender of a datagram
that parses, at the address it came from, whatever becomes of the request, and
is left alone by connections.

That an acknowledged store is acknowledged again is a fact about the handler,
for the value it meets the second time is its own. The rest follows the cases
of `serve_cases`. -/
theorem serve_confined (crypto : Crypto) (context : Context A) (arrival : Arrival) :
    Confined crypto context arrival := by
  refine ⟨fun hsilent => (serve_values_cases crypto context arrival).elim id ?_,
    fun hchanged => (serve_values_cases crypto context arrival).resolve_left hchanged,
    fun sender body hp hack => ?_, fun sender body hp hack => ?_,
    fun sender method body hp hne => ?_, ?_, ?_⟩
  · rintro ⟨sender, body, hp, hack⟩
    obtain ⟨id, hserve⟩ := serve_store (A := A) crypto hp
    rw [(hserve context).1, hack] at hsilent
    cases hsilent
  · obtain ⟨id, hserve⟩ := serve_store (A := A) crypto hp
    rcases handle_cases crypto context.dns context.values body with heq | ⟨request, hdec, heq, -⟩
    · rw [heq] at hack
      cases hack
    · exact ⟨request, hdec, by rw [(hserve context).2.1, heq]⟩
  · obtain ⟨id, hserve⟩ := serve_store (A := A) crypto hp
    obtain ⟨hreply, hvalues, hdns⟩ := hserve context
    obtain ⟨hreply', hvalues', -⟩ := hserve (serve crypto context arrival).2
    rcases handle_cases crypto context.dns context.values body with heq | ⟨request, -, heq, hagain⟩
    · rw [heq] at hack
      cases hack
    · rw [heq] at hvalues
      rw [hdns, hagain _ (by rw [hvalues]; exact Function.update_self ..)] at hreply' hvalues'
      exact ⟨by rw [hreply', hreply, hack], by rw [hreply, hack]; exact Option.some_ne_none _,
        hvalues'⟩
  · refine serve_values_of_ne crypto context fun sender' body' hp' => ?_
    cases hp.symm.trans hp'
    exact hne rfl
  · rintro source bytes rfl
    rw [serve_closeNodes, Arrival.learned]
    cases (Arrival.datagram source bytes).parsed <;> rfl
  · rintro source bytes rfl
    rw [serve_closeNodes]
    rfl

/-! ## There and back

The two transports, with nothing in between lost. Over a connection the reply
is whatever comes before the end; in datagrams the caller registers for it
first, and a reply that is cut off at the buffer would be a different one. So
the bounds on lengths are hypotheses here, and are discharged for the calls
that go in datagrams further below. -/

variable (crypto)

/-- A call over a connection: the request is read to its end, and the reply is
written before the connection is closed. -/
def viaConnection (id : UInt64) (source : SocketAddr) (payload : List UInt8)
    (context : Context A) : Option (List UInt8) × Context A :=
  match Request.fromConnection source (frameRequest id payload) with
  | none => (none, context)
  | some request =>
    let (reply, context) := dispatch crypto context request
    ((streamReply id (reply.getD [])).toOption, context)

/-- What a node sends back for a datagram. -/
def serveDatagram (source : SocketAddr) (datagram : List UInt8) (context : Context A) :
    Option (List UInt8) × Context A :=
  match inbound source datagram with
  | .request request => dispatch crypto context request
  | _ => (none, context)

/-- What a response gets from a datagram: the reply delivered to it. -/
def receiveReply (pending : Pending) (response : PendingResponse) (peer : SocketAddr)
    (datagram : List UInt8) : Option (List UInt8) :=
  match inbound peer datagram with
  | .reply id body => ((pending.deliver id peer body).2.poll response).join
  | _ => none

/-- Register an id, send a datagram to a peer, of which nothing gets lost, and
wait for the reply. -/
def sendReceive (pending : Pending) (id : UInt64) (source peer : SocketAddr)
    (datagram : List UInt8) (context : Context A) : Option (List UInt8) × Context A :=
  match pending.register id peer with
  | (none, _) => (none, context)
  | (some response, pending) =>
    let (reply, context) := serveDatagram crypto source datagram context
    (reply.bind (receiveReply pending response peer), context)

/-- A call in a datagram. -/
def viaDatagram (pending : Pending) (id : UInt64) (source peer : SocketAddr)
    (payload : List UInt8) (context : Context A) : Option (List UInt8) × Context A :=
  sendReceive crypto pending id source peer (frameRequest id payload) context

variable {crypto}

/-- **Over a connection a call comes to what the handler answers.** -/
theorem viaConnection_framed {id : UInt64} (hid : isReply id = false) (source : SocketAddr)
    (sender : NodeId) (method : Method) (body : List UInt8) (context : Context A) :
    viaConnection crypto id source (framed sender method body) context
      = route crypto context method body := by
  unfold viaConnection
  rw [fromConnection_frameRequest]
  dsimp only
  rw [dispatch_framed, if_neg Bool.false_ne_true]
  refine Prod.ext ?_ rfl
  cases (route crypto context method body).1 with
  | none => rfl
  | some reply =>
    rw [Option.map_some, Option.getD_some, streamReply_frameReply hid]
    rfl

-- stated for any datagram: unfolding over a framed one would have the kernel
-- evaluate its bytes
theorem serveDatagram_of_inbound {source : SocketAddr} {datagram : List UInt8} {request : Request}
    (h : inbound source datagram = .request request) (context : Context A) :
    serveDatagram crypto source datagram context = dispatch crypto context request := by
  unfold serveDatagram
  rw [h]

theorem receiveReply_of_inbound {pending : Pending} {response : PendingResponse}
    {peer : SocketAddr} {datagram body : List UInt8} {id : UInt64}
    (h : inbound peer datagram = .reply id body) :
    receiveReply pending response peer datagram
      = ((pending.deliver id peer body).2.poll response).join := by
  unfold receiveReply
  rw [h]

theorem sendReceive_of_free {id : UInt64} {pending : Pending} (hfree : pending.slots id = none)
    (source peer : SocketAddr) (datagram : List UInt8) (context : Context A) :
    sendReceive crypto pending id source peer datagram context
      = ((serveDatagram crypto source datagram context).1.bind
          (receiveReply (pending.register id peer).2 ⟨id, pending.channels.length⟩ peer),
        (serveDatagram crypto source datagram context).2) := by
  unfold sendReceive
  rw [Pending.register_of_free hfree]

/-- **In datagrams too, if they fit**, and the sender is learned before. The
request is read back as it was framed; the reply carries its id with the top
bit set, so the receiver takes it for a reply and finds the slot that was
registered, which expects the peer the reply comes from. -/
theorem viaDatagram_framed {id : UInt64} (hid : isReply id = false) {pending : Pending}
    (hfree : pending.slots id = none) (source peer : SocketAddr) {sender : NodeId}
    {method : Method} {body : List UInt8} {context : Context A}
    (hfit : idLen + (framed sender method body).length ≤ receiveBuffer)
    (hback : ∀ reply ∈ (route crypto (context.learn ⟨sender, source⟩) method body).1,
      idLen + reply.length ≤ receiveBuffer) :
    viaDatagram crypto pending id source peer (framed sender method body) context
      = route crypto (context.learn ⟨sender, source⟩) method body := by
  rw [viaDatagram, sendReceive_of_free hfree,
    serveDatagram_of_inbound (inbound_frameRequest hid source hfit), dispatch_framed, if_pos rfl]
  refine Prod.ext ?_ rfl
  cases hreply : (route crypto (context.learn ⟨sender, source⟩) method body).1 with
  | none => rfl
  | some reply =>
    rw [Option.map_some, Option.bind_some,
      receiveReply_of_inbound (inbound_frameReply hid peer (hback reply hreply)),
      Pending.poll_deliver_register hfree]
    rfl

/-! ## What replies take

An address takes 22 bytes at most, with its tag, its port and the octets of the
longer kind; a contact takes 54. -/

theorem fits_key : (Serialize.codec : Codec Key).Fits 32 := Codec.fits_byte.array idBytes

theorem fits_socketAddr : (Serialize.codec : Codec SocketAddr).Fits 22 :=
  (((Codec.fits_byte.array 4).prod Codec.fits_u16).sum
    ((Codec.fits_byte.array 16).prod Codec.fits_u16)).imap _ _ _

theorem fits_contact : (Serialize.codec : Codec Contact).Fits 54 :=
  ((Codec.fits_byte.array idBytes).prod fits_socketAddr).imap _ _ _

/-- **`K` contacts are written in 548 bytes.** -/
theorem serialize_contacts {contacts : List Contact} (h : contacts.length ≤ K) :
    ∃ bytes, serialize contacts = some bytes ∧ bytes.length ≤ 548 := by
  have hK : K = 10 := rfl
  obtain ⟨bytes, hbytes, hlen⟩ := fits_contact.encode_vec (l := contacts) (by omega)
  exact ⟨bytes, hbytes, by omega⟩

end HandleRpc

/-! ## The four calls

Each call as the client makes it and as the handler computes it: the first goes
through the bytes, the second is what the caller has in mind. They agree. -/

open HandleRpc

/-- A call, with its arguments. -/
inductive RpcCall where
  /-- Who is there. -/
  | ping
  /-- Which contacts are nearest to an id. -/
  | findNode (target : NodeId)
  /-- What is stored under a key. -/
  | findValue (key : Key)
  /-- Store a value. -/
  | storeWithProof (key : Key) (value : Value) (proof : List (Signed VersionRecord))
deriving DecidableEq

/-- What a call comes to. -/
inductive RpcResult where
  /-- The id of who is there, if anyone. -/
  | id (id : Option NodeId)
  /-- Contacts. -/
  | contacts (contacts : List Contact)
  /-- A value, or contacts. -/
  | answer (answer : FindValue)
  /-- Whether the value was stored. -/
  | acknowledged (acknowledged : Bool)
deriving DecidableEq

namespace RpcCall

/-- The method of a call. -/
def method : RpcCall → Method
  | .ping => .ping
  | .findNode _ => .findNode
  | .findValue _ => .findValue
  | .storeWithProof _ _ _ => .store

/-- The body of a call. -/
def body : RpcCall → Option (List UInt8)
  | .ping => some []
  | .findNode target => serialize target
  | .findValue key => serialize key
  | .storeWithProof key value proof => encodeRequestWithProof key value proof

/-- What the client makes of the reply, or of none. -/
def read : RpcCall → Option (List UInt8) → RpcResult
  | .ping, reply => .id (reply.bind deserialize)
  | .findNode _, reply => .contacts (Rpc.nodesIn reply)
  | .findValue _, reply => .answer (Rpc.answerIn reply)
  | .storeWithProof _ _ _, reply => .acknowledged (reply == some stored)

/-- Whether a call goes in a datagram. Those that carry values go over a
connection. -/
def inDatagram : RpcCall → Bool
  | .ping | .findNode _ => true
  | .findValue _ | .storeWithProof _ _ _ => false

/-- What a handler reads in a body are the arguments of a call. -/
def Decodes (body : List UInt8) : RpcCall → Prop
  | .ping => True
  | .findNode target => deserialize body = some target
  | .findValue key => deserialize body = some key
  | .storeWithProof key value proof => deserialize body = some (⟨key, value, proof⟩ : StoreRequest)

variable {A : Type} [CloseNodes A] (crypto : Crypto)

/-- **A call to a peer**, from a node at the address `source`: what it comes to,
and what it leaves the peer with. -/
def run (pending : Pending) (id : UInt64) (sender : NodeId) (source peer : SocketAddr)
    (call : RpcCall) (context : Context A) : RpcResult × Context A :=
  match call.body with
  | none => (call.read none, context)
  | some body =>
    let payload := framed sender call.method body
    let (reply, context) :=
      if call.inDatagram then viaDatagram crypto pending id source peer payload context
      else viaConnection crypto id source payload context
    (call.read reply, context)

/-- The node a call is answered by: it has learned the sender of a datagram. -/
def met (call : RpcCall) (contact : Contact) (context : Context A) : Context A :=
  if call.inDatagram then context.learn contact else context

/-- What the handler of a call computes. -/
def computed (context : Context A) (body : List UInt8) : RpcCall → RpcResult
  | .ping => .id (some context.myId)
  | .findNode target => .contacts (CloseNodes.closeNodes context.closeNodes target)
  | .findValue key => .answer (FindValue.reply context key)
  | .storeWithProof _ _ _ =>
    .acknowledged (decide ((handle crypto context.dns context.values body).1 = some stored))

variable {crypto} {call : RpcCall} {body : List UInt8}

/-- The arguments are read back. -/
theorem decodes_body (h : call.body = some body) : call.Decodes body := by
  cases call with
  | ping => trivial
  | findNode target => exact deserialize_serialize h
  | findValue key => exact deserialize_serialize h
  | storeWithProof key value proof => exact deserialize_serialize h

/-- What a node can answer with: contacts that fit a datagram, and values that
can be written. -/
structure Answers (context : Context A) : Prop where
  /-- A query is answered with at most `K` contacts. -/
  length_le : ∀ id, (CloseNodes.closeNodes context.closeNodes id).length ≤ K
  /-- Every value stored has a length that can be written. -/
  serialize : ∀ key value, context.values key = some value → ∃ bytes, serialize value = some bytes

/-- An answer to a value query is written. -/
theorem serialize_reply {context : Context A} (h : Answers context) (key : Key) :
    ∃ bytes, Kademlia.serialize (FindValue.reply context key) = some bytes := by
  unfold FindValue.reply
  cases hvalue : context.values key with
  | some value =>
    obtain ⟨bytes, hbytes⟩ := h.serialize key value hvalue
    refine ⟨Codec.toLE 4 0 ++ bytes, ?_⟩
    show (Kademlia.serialize value >>= fun bs => some (Codec.toLE 4 0 ++ bs)) = _
    rw [hbytes]
    rfl
  | none =>
    obtain ⟨bytes, hbytes, -⟩ := serialize_contacts (h.length_le key)
    refine ⟨Codec.toLE 4 1 ++ bytes, ?_⟩
    show (Kademlia.serialize (CloseNodes.closeNodes context.closeNodes key)
      >>= fun bs => some (Codec.toLE 4 1 ++ bs)) = _
    rw [hbytes]
    rfl

/-- **The client reads what the handler computed.** By cases on the call: its
body decodes to the arguments it was made of, and what the handler writes is
read back as it was. A list of contacts and a stored value are written only if
their lengths can be, which is what `Answers` is for. -/
theorem read_route {context : Context A} (h : Answers context) (hbody : call.body = some body) :
    call.read (route crypto context call.method body).1 = call.computed crypto context body := by
  have hdec := decodes_body hbody
  cases call with
  | ping =>
    obtain ⟨bytes, hbytes, -⟩ := fits_key context.myId
    have hread : deserialize bytes = some context.myId := deserialize_serialize hbytes
    show RpcResult.id ((serialize context.myId).bind deserialize) = _
    rw [show serialize context.myId = some bytes from hbytes, Option.bind_some, hread]
    rfl
  | findNode target =>
    obtain ⟨bytes, hbytes, -⟩ := serialize_contacts (h.length_le target)
    have hread := deserialize_serialize hbytes
    show RpcResult.contacts (Rpc.nodesIn (FindNode.handle context body)) = _
    unfold FindNode.handle
    rw [show deserialize body = some target from hdec]
    dsimp only
    rw [hbytes, Rpc.nodesIn, hread]
    rfl
  | findValue key =>
    obtain ⟨bytes, hbytes⟩ := serialize_reply h key
    have hread := deserialize_serialize hbytes
    show RpcResult.answer (Rpc.answerIn (FindValue.handle context body)) = _
    unfold FindValue.handle
    rw [show deserialize body = some key from hdec]
    dsimp only
    rw [hbytes, Rpc.answerIn, hread]
    rfl
  | storeWithProof key value proof => exact congrArg RpcResult.acknowledged (beq_eq_decide _ _)

/-- The body of what goes in a datagram is at most an id. -/
theorem length_body_le (hbody : call.body = some body) (hdatagram : call.inDatagram = true) :
    body.length ≤ 32 := by
  cases call with
  | ping =>
    cases hbody
    exact Nat.zero_le _
  | findNode target =>
    obtain ⟨bytes, hbytes, hlen⟩ := fits_key target
    cases hbytes.symm.trans hbody
    exact hlen
  | findValue key => cases hdatagram
  | storeWithProof key value proof => cases hdatagram

/-- The reply is at most `K` contacts. -/
theorem length_reply_le {context : Context A} (h : Answers context) (hbody : call.body = some body)
    (hdatagram : call.inDatagram = true) {reply : List UInt8}
    (hreply : (route crypto context call.method body).1 = some reply) : reply.length ≤ 548 := by
  cases call with
  | ping =>
    obtain ⟨bytes, hbytes, hlen⟩ := fits_key context.myId
    cases hbytes.symm.trans hreply
    omega
  | findNode target =>
    obtain ⟨bytes, hbytes, hlen⟩ := serialize_contacts (h.length_le target)
    have hdec : deserialize body = some target := decodes_body hbody
    have hhandle : FindNode.handle context body = some reply := hreply
    unfold FindNode.handle at hhandle
    rw [hdec] at hhandle
    cases hbytes.symm.trans hhandle
    exact hlen
  | findValue key => cases hdatagram
  | storeWithProof key value proof => cases hdatagram

theorem length_framed_le (sender : NodeId) (method : Method) (body : List UInt8) :
    (framed sender method body).length ≤ 42 + body.length := by
  have htag : method.tag.length ≤ 10 := by cases method <;> decide
  unfold framed
  rw [List.length_append, List.length_append, sender.toList_length]
  have hid : idBytes = 32 := rfl
  omega

/-- **Client and server agree on the wire.** Whatever the sender, the id with
its top bit clear and the body, a request is taken apart into what it was put
together from; the handler reads the arguments of the call; and what the call
comes to is what the handler computed, with the node left as the handler leaves
it.

The node answers with at most `K` contacts, so what goes in datagrams fits them
both ways: 74 bytes of request and 548 of reply, each after the 8 of its id.
Value queries and stores have no such bound and go over connections, which are
read to their end. -/
theorem wire_agrees (crypto : Crypto) (context : Context A) (call : RpcCall) (sender : NodeId)
    (source peer : SocketAddr) (id : UInt64) (hid : isReply id = false) (pending : Pending)
    (hfree : pending.slots id = none) (hanswers : Answers (call.met ⟨sender, source⟩ context)) :
    (∀ (method : Method) (content : List UInt8),
        Request.fromDatagram source (frameRequest id (framed sender method content))
            = some ⟨id, source, true, framed sender method content⟩
          ∧ Request.fromConnection source (frameRequest id (framed sender method content))
            = some ⟨id, source, false, framed sender method content⟩
          ∧ parseFramed (framed sender method content) = some (sender, method, content))
      ∧ ∀ body, call.body = some body → call.Decodes body
        ∧ call.run crypto pending id sender source peer context
          = (call.computed crypto (call.met ⟨sender, source⟩ context) body,
            (route crypto (call.met ⟨sender, source⟩ context) call.method body).2) := by
  refine ⟨fun method content => ⟨fromDatagram_frameRequest .., fromConnection_frameRequest ..,
    parseFramed_append ..⟩, fun body hbody => ⟨decodes_body hbody, ?_⟩⟩
  have hroute : (if call.inDatagram
        then viaDatagram crypto pending id source peer (framed sender call.method body) context
        else viaConnection crypto id source (framed sender call.method body) context)
      = route crypto (call.met ⟨sender, source⟩ context) call.method body := by
    unfold met at hanswers ⊢
    cases hdatagram : call.inDatagram with
    | true =>
      rw [hdatagram] at hanswers
      have hbuffer : idLen = 8 ∧ receiveBuffer = 1024 := ⟨rfl, rfl⟩
      have hlen := length_body_le hbody hdatagram
      have hframed := length_framed_le sender call.method body
      refine viaDatagram_framed hid hfree source peer (by omega) (fun reply hreply => ?_)
      have hback := length_reply_le hanswers hbody hdatagram hreply
      omega
    | false => exact viaConnection_framed hid source sender call.method body context
  unfold run
  rw [hbody]
  dsimp only
  rw [hroute, read_route hanswers hbody]

/-- A node that knows three contacts and stores nothing. -/
def Sample.answering : Context Table :=
  ⟨(Table.contact 0 0).id, Table.run (Table.contact 0 0).id (Table.offers [1, 2, 3]),
    fun _ => none, fun _ => none⟩

/-- Asked for an id by a fourth, it answers with all four. -/
theorem wire_agrees_sample :
    ((findNode (Table.contact 2 0).id).run Sample.crypto Pending.new 7 (Table.contact 9 0).id
        (Table.contact 9 1000).address (Table.contact 0 0).address Sample.answering).1
      = .contacts ([2, 3, 1, 9].map (fun b => Table.contact b 1000)) := by
  obtain ⟨body, hbody, -⟩ := fits_key (Table.contact 2 0).id
  obtain ⟨-, hrun⟩ := wire_agrees Sample.crypto Sample.answering
    (findNode (Table.contact 2 0).id) (Table.contact 9 0).id (Table.contact 9 1000).address
    (Table.contact 0 0).address 7 (by decide) Pending.new rfl
    ⟨fun id => SiblingList.length_closeNodes_le _ id, fun _ _ h => (nomatch h)⟩
  rw [(hrun body hbody).2]
  show RpcResult.contacts (CloseNodes.closeNodes
    (Sample.answering.learn (Table.contact 9 1000)).closeNodes (Table.contact 2 0).id) = _
  decide +kernel

end RpcCall

end Kademlia
