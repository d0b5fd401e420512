import Kademlia.HandleRpc

/-!
# One spelling on the wire

Everything nodes send each other is put together from a few formats, each of
which reads back what it wrote. This module is about the other direction: what a
node accepts is what would have been written for the value it reads, up to the
bytes after it, which are ignored (`wire_messages_canonical`).

For a node that stores what it is sent this is more than tidiness. A value is
stored as it was read, and answering a query for it means writing it again, which
can fail. It does not: a value that was read has a spelling, the one it came in.
So what a node has acknowledged it can answer with, whatever it is sent
afterwards (`acknowledged_is_served`).
-/

namespace Kademlia

/-! ## The formats

Each format is canonical because its parts are. The parts are told in the order
in which the messages are made of them. -/

section Formats

variable {T : Type}

/-- What is read whole is what would have been written, and what follows. -/
theorem serialize_of_deserialize [Serialize T] (hc : (Serialize.codec : Codec T).Canonical)
    {bs : List UInt8} {x : T} (h : deserialize bs = some x) :
    ∃ front rest, serialize x = some front ∧ bs = front ++ rest := hc.deserialize h

theorem canonical_key : (Serialize.codec : Codec Key).Canonical :=
  Codec.canonical_byte.array idBytes

theorem canonical_version : (Serialize.codec : Codec Version).Canonical :=
  (Codec.canonical_u32.prod (Codec.canonical_u32.prod Codec.canonical_u32)).imap _
    fun _ _ _ _ => rfl

theorem canonical_versionRecord : (Serialize.codec : Codec VersionRecord).Canonical :=
  (Codec.canonical_string.prod (Codec.canonical_string.prod (Codec.canonical_string.prod
    (canonical_version.prod (canonical_key.prod canonical_key))))).imap _ fun _ _ _ _ => rfl

theorem canonical_latestPointer : (Serialize.codec : Codec LatestPointer).Canonical :=
  (Codec.canonical_string.prod (Codec.canonical_string.prod (Codec.canonical_string.prod
    (canonical_version.prod canonical_key)))).imap _ fun _ _ _ _ => rfl

theorem canonical_signed [Serialize T] (hc : (Serialize.codec : Codec T).Canonical) :
    (Serialize.codec : Codec (Signed T)).Canonical :=
  (hc.prod Codec.canonical_byte.vec).imap _ fun _ _ _ _ => rfl

theorem canonical_value : (Serialize.codec : Codec Value).Canonical :=
  (Codec.canonical_byte.vec.sum (canonical_signed canonical_latestPointer)).imap _
    fun _ x _ _ => by cases x <;> rfl

theorem canonical_list [Serialize T] (hc : (Serialize.codec : Codec T).Canonical) :
    (Serialize.codec : Codec (List T)).Canonical := hc.vec

theorem canonical_storeRequest : (Serialize.codec : Codec StoreRequest).Canonical :=
  (canonical_key.prod (canonical_value.prod (canonical_signed canonical_versionRecord).vec)).imap _
    fun _ _ _ _ => rfl

theorem canonical_socketAddr : (Serialize.codec : Codec SocketAddr).Canonical :=
  (((Codec.canonical_byte.array 4).prod Codec.canonical_u16).sum
    ((Codec.canonical_byte.array 16).prod Codec.canonical_u16)).imap _
    fun _ x _ _ => by cases x <;> rfl

theorem canonical_contact : (Serialize.codec : Codec Contact).Canonical :=
  ((Codec.canonical_byte.array idBytes).prod canonical_socketAddr).imap _ fun _ _ _ _ => rfl

theorem canonical_findValue : (Serialize.codec : Codec FindValue).Canonical :=
  (canonical_value.sum (canonical_list canonical_contact)).imap _ fun _ x _ _ => by cases x <;> rfl

end Formats

/-- **Accepted bytes have one spelling.** The format is bincode's, with the
default options the program uses it with: integers of fixed width and
little-endian, a length of eight bytes before a sequence, a tag of four bytes
before a variant, and bytes after the value ignored. Whatever is read in it –
an id, contacts, an answer to a value query, a request to store, and on their
own the signed bodies these carry, a record of a history and a latest pointer –
would be written as the bytes it was read off, up to what follows them.

Nothing in the format is left to whoever writes it. A width is never chosen by
the size of the number, a tag that names no variant is refused rather than
taken for another, and text is checked to be UTF-8 and not repaired. Each of
these is a fact about one constructor of codecs, and the messages are built
from those constructors. -/
theorem wire_messages_canonical (bs : List UInt8) :
    (∀ key : Key, deserialize bs = some key →
        ∃ front rest, serialize key = some front ∧ bs = front ++ rest)
      ∧ (∀ contacts : List Contact, deserialize bs = some contacts →
        ∃ front rest, serialize contacts = some front ∧ bs = front ++ rest)
      ∧ (∀ answer : FindValue, deserialize bs = some answer →
        ∃ front rest, serialize answer = some front ∧ bs = front ++ rest)
      ∧ (∀ request : StoreRequest, deserialize bs = some request →
        ∃ front rest, encodeRequestWithProof request.key request.value request.proof = some front
          ∧ bs = front ++ rest)
      ∧ (∀ record : Signed VersionRecord, deserialize bs = some record →
        ∃ front rest, serialize record = some front ∧ bs = front ++ rest)
      ∧ ∀ pointer : Signed LatestPointer, deserialize bs = some pointer →
        ∃ front rest, serialize pointer = some front ∧ bs = front ++ rest :=
  ⟨fun _ => serialize_of_deserialize canonical_key,
    fun _ => serialize_of_deserialize (canonical_list canonical_contact),
    fun _ => serialize_of_deserialize canonical_findValue,
    fun _ => serialize_of_deserialize canonical_storeRequest,
    fun _ => serialize_of_deserialize (canonical_signed canonical_versionRecord),
    fun _ => serialize_of_deserialize (canonical_signed canonical_latestPointer)⟩

/-- The value of a request that was read can be written. -/
theorem serialize_value_of_deserialize {body : List UInt8} {request : StoreRequest}
    (h : deserialize body = some request) : ∃ bytes, serialize request.value = some bytes := by
  obtain ⟨front, -, henc, -⟩ := serialize_of_deserialize canonical_storeRequest h
  obtain ⟨_, -, hrest⟩ := Option.bind_eq_some_iff.mp henc
  obtain ⟨_, hrest, -⟩ := Option.bind_eq_some_iff.mp hrest
  obtain ⟨bytes, hbytes, -⟩ := Option.bind_eq_some_iff.mp hrest
  exact ⟨bytes, hbytes⟩

namespace HandleRpc

variable {A : Type} [CloseNodes A]

/-! ## What was acknowledged

A node over all that comes in, by either transport and from anyone. What it
stores was sent to it, so it was read, so it can be written. -/

/-- The node after everything that came in. -/
def serveAll (crypto : Crypto) (context : Context A) (arrivals : List Arrival) : Context A :=
  arrivals.foldl (fun context arrival => (serve crypto context arrival).2) context

/-- The requests to store among what came in. -/
def storeBodies (arrivals : List Arrival) : Set (List UInt8) :=
  {body | ∃ arrival ∈ arrivals, ∃ sender, arrival.parsed = some (sender, .store, body)}

/-- **What a node stores is in order**: it was sent, and it can be written. -/
structure Stored (crypto : Crypto) (bodies : Set (List UInt8)) (values : Values) : Prop where
  /-- Every value stored was sent, under its own key. -/
  holds : AllHold crypto bodies values
  /-- Every value stored can be written. -/
  serialize : ∀ key value, values key = some value → ∃ bytes, serialize value = some bytes

/-- A request to store keeps it so, and what is stored gives way only to what
follows it. -/
theorem Stored.handle {crypto : Crypto} {bodies : Set (List UInt8)}
    (hinj : Set.InjOn crypto.sha256 (hashed bodies)) {values : Values}
    (h : Stored crypto bodies values) (dns : String → Option VerifyingKey) {body : List UInt8}
    (hbody : body ∈ bodies) :
    Stored crypto bodies (Kademlia.handle crypto dns values body).2
      ∧ ∀ key value, values key = some value →
        ∃ later, (Kademlia.handle crypto dns values body).2 key = some later
          ∧ Follows crypto bodies value later := by
  obtain ⟨hholds, hlater⟩ := h.holds.handle hinj dns hbody
  refine ⟨⟨hholds, fun key value hv => ?_⟩, hlater⟩
  rcases handle_cases crypto dns values body with heq | ⟨request, hdec, heq, -⟩
  · rw [heq] at hv
    exact h.serialize key value hv
  · rw [heq] at hv
    have hv' : Function.update values request.key (some request.value) key = some value := hv
    by_cases hk : key = request.key
    · rw [hk, Function.update_self] at hv'
      cases hv'
      exact serialize_value_of_deserialize hdec
    · rw [Function.update_of_ne hk] at hv'
      exact h.serialize key value hv'

/-- **So does whatever comes in.** -/
theorem Stored.serve {crypto : Crypto} {bodies : Set (List UInt8)}
    (hinj : Set.InjOn crypto.sha256 (hashed bodies)) {context : Context A}
    (h : Stored crypto bodies context.values) (arrival : Arrival)
    (hbodies : storeBodies [arrival] ⊆ bodies) :
    Stored crypto bodies (serve crypto context arrival).2.values
      ∧ ∀ key value, context.values key = some value →
        ∃ later, (serve crypto context arrival).2.values key = some later
          ∧ Follows crypto bodies value later := by
  by_cases hstore : ∃ sender body, arrival.parsed = some (sender, .store, body)
  · obtain ⟨sender, body, hp⟩ := hstore
    obtain ⟨id, hserve⟩ := serve_store (A := A) crypto hp
    rw [(hserve context).2.1]
    exact h.handle hinj context.dns (hbodies ⟨arrival, List.mem_cons_self, sender, hp⟩)
  · rw [serve_values_of_ne crypto context fun sender body hp => hstore ⟨sender, body, hp⟩]
    exact ⟨h, fun key value hv => ⟨value, hv, Follows.refl value⟩⟩

/-- **Over a whole run.** By induction on what comes in, last to first: a value
gives way to what follows it, and following is transitive over what was
sent. -/
theorem Stored.serveAll {crypto : Crypto} {bodies : Set (List UInt8)}
    (hinj : Set.InjOn crypto.sha256 (hashed bodies)) {context : Context A}
    (h : Stored crypto bodies context.values) (arrivals : List Arrival)
    (hbodies : storeBodies arrivals ⊆ bodies) :
    Stored crypto bodies (serveAll crypto context arrivals).values
      ∧ ∀ key value, context.values key = some value →
        ∃ later, (HandleRpc.serveAll crypto context arrivals).values key = some later
          ∧ Follows crypto bodies value later := by
  induction arrivals generalizing context with
  | nil => exact ⟨h, fun key value hv => ⟨value, hv, Follows.refl value⟩⟩
  | cons arrival arrivals ih =>
    obtain ⟨hnow, hstep⟩ := h.serve hinj arrival fun body hb => by
      obtain ⟨a, ha, hp⟩ := hb
      exact hbodies ⟨a, List.mem_singleton.mp ha ▸ List.mem_cons_self, hp⟩
    obtain ⟨hend, hrun⟩ := ih hnow fun body hb => by
      obtain ⟨a, ha, hp⟩ := hb
      exact hbodies ⟨a, List.mem_cons_of_mem _ ha, hp⟩
    refine ⟨hend, fun key value hv => ?_⟩
    obtain ⟨next, hnext, hfollows⟩ := hstep key value hv
    obtain ⟨later, hlater, hfollows'⟩ := hrun key next hnext
    exact ⟨later, hlater, hfollows.trans (hnow.holds key next hnext) hfollows'⟩

/-- **A value stored is answered with**, in a reply that reads as the value. -/
theorem route_findValue_of_stored {crypto : Crypto} {bodies : Set (List UInt8)}
    {context : Context A} (h : Stored crypto bodies context.values) {key : Key} {value : Value}
    (hv : context.values key = some value) {body : List UInt8} (hbody : serialize key = some body) :
    ∃ reply, route crypto context .findValue body = (some reply, context)
      ∧ Rpc.answerIn (some reply) = .value value := by
  obtain ⟨bytes, hbytes⟩ := h.serialize key value hv
  have hreply : serialize (FindValue.value value) = some (Codec.toLE 4 0 ++ bytes) := by
    show (Kademlia.serialize value >>= fun bs => some (Codec.toLE 4 0 ++ bs)) = _
    rw [hbytes]
    rfl
  refine ⟨Codec.toLE 4 0 ++ bytes, ?_, ?_⟩
  · show (FindValue.handle context body, context) = _
    unfold FindValue.handle FindValue.reply
    rw [deserialize_serialize hbody]
    dsimp only
    rw [hv]
    dsimp only
    rw [hreply]
  · show (deserialize (Codec.toLE 4 0 ++ bytes) : Option FindValue).getD _ = _
    rw [deserialize_serialize hreply]
    rfl

/-- **What a node acknowledged it serves ever after.** A node that started with
nothing stored acknowledged a request to store. Whatever else it is sent,
before and after, from whomever, a value query over a connection is then
answered with the value, or with one that follows it: a blob is followed by
itself or by a pointer under the same key, a pointer by a pointer whose history
continues its own.

An acknowledgement is sent once the value is in its slot. From then on the slot
is never empty, and each value in it follows the one before
(`Stored.serveAll`). That a reply is sent at all takes an argument of its own,
since writing can fail: it does not for a value that was read. -/
theorem acknowledged_is_served (crypto : Crypto) (start : Context A)
    (hempty : ∀ key, start.values key = none) (before after : List Arrival) (arrival : Arrival)
    (hinj : Set.InjOn crypto.sha256 (hashed (storeBodies (before ++ arrival :: after))))
    (sender : NodeId) (body : List UInt8) (request : StoreRequest)
    (hstore : arrival.parsed = some (sender, .store, body)) (hdec : deserialize body = some request)
    (hack : (serve crypto (serveAll crypto start before) arrival).1 ≠ none) :
    ∃ later, Follows crypto (storeBodies (before ++ arrival :: after)) request.value later
      ∧ ∀ (id : UInt64) (source : SocketAddr) (asker : NodeId), isReply id = false →
        ∃ reply, viaConnection crypto id source
              (framed asker .findValue ((serialize request.key).getD []))
              (serveAll crypto start (before ++ arrival :: after))
            = (some reply, serveAll crypto start (before ++ arrival :: after))
          ∧ Rpc.answerIn (some reply) = .value later := by
  have hsub : ∀ {a : List Arrival}, a ⊆ before ++ arrival :: after →
      storeBodies a ⊆ storeBodies (before ++ arrival :: after) :=
    fun ha body ⟨x, hx, hp⟩ => ⟨x, ha hx, hp⟩
  have hstart : Stored crypto (storeBodies (before ++ arrival :: after)) start.values :=
    ⟨fun key value hv => absurd (hv.symm.trans (hempty key)) (Option.some_ne_none _),
      fun key value hv => absurd (hv.symm.trans (hempty key)) (Option.some_ne_none _)⟩
  have hbefore := (hstart.serveAll hinj before (hsub (List.subset_append_left _ _))).1
  have hthen := (hbefore.serve hinj arrival (hsub (by simp))).1
  -- the value is in its slot when it is acknowledged
  have hslot : (serve crypto (serveAll crypto start before) arrival).2.values request.key
      = some request.value := by
    obtain ⟨id, hserve⟩ := serve_store (A := A) crypto hstore
    obtain ⟨hreply, hvalues, -⟩ := hserve (serveAll crypto start before)
    rw [hvalues]
    rw [hreply] at hack
    rcases handle_cases crypto (serveAll crypto start before).dns
      (serveAll crypto start before).values body with heq | ⟨request', hdec', heq, -⟩
    · rw [heq] at hack
      exact absurd rfl hack
    · cases hdec.symm.trans hdec'
      rw [heq]
      exact Function.update_self ..
  obtain ⟨hend, hlater⟩ := hthen.serveAll hinj after
    (hsub fun x hx => List.mem_append_right _ (List.mem_cons_of_mem _ hx))
  obtain ⟨later, hv, hfollows⟩ := hlater request.key request.value hslot
  have hall : serveAll crypto start (before ++ arrival :: after)
      = serveAll crypto (serve crypto (serveAll crypto start before) arrival).2 after := by
    unfold serveAll
    rw [List.foldl_append, List.foldl_cons]
  refine ⟨later, hfollows, fun id source asker hid => ?_⟩
  rw [hall, viaConnection_framed hid]
  obtain ⟨bytes, hbytes, -⟩ := fits_key request.key
  obtain ⟨reply, hroute, hread⟩ := route_findValue_of_stored hend hv hbytes
  have hbytes' : serialize request.key = some bytes := hbytes
  rw [hbytes']
  exact ⟨reply, hroute, hread⟩

/-- A request to store a value of the sample history, over a connection. -/
def Sample.storing (value : Value) (proof : List (Signed VersionRecord)) : Arrival :=
  .connection (Table.contact 9 1000).address
    (frameRequest 7 (framed (Table.contact 9 0).id .store (Kademlia.Sample.body value proof)))

/-- A node that knows nobody. -/
def Sample.alone : Context Table :=
  ⟨(Table.contact 0 0).id, Table.run (Table.contact 0 0).id [], fun _ => none,
    fun _ => some Kademlia.Sample.owner⟩

theorem Sample.parsed_storing (value : Value) (proof : List (Signed VersionRecord)) :
    (Sample.storing value proof).parsed
      = some ((Table.contact 9 0).id, .store, Kademlia.Sample.body value proof) := by
  show (Request.fromConnection _ _).bind (fun request => parseFramed request.payload) = _
  rw [fromConnection_frameRequest]
  exact parseFramed_append ..

theorem Sample.body_of_parsed {value : Value} {proof : List (Signed VersionRecord)}
    {sender : NodeId} {body : List UInt8}
    (h : (Sample.storing value proof).parsed = some (sender, .store, body)) :
    body = Kademlia.Sample.body value proof := by
  rw [Sample.parsed_storing] at h
  exact (congrArg (fun p => p.2.2) (Option.some.inj h)).symm

/-- The first version is acknowledged, the second follows it, and a query gets
one of them. -/
theorem acknowledged_is_served_sample :
    ∃ later reply, Rpc.answerIn (some reply) = .value later
      ∧ (viaConnection Kademlia.Sample.crypto 7 (Table.contact 9 1000).address
          (framed (Table.contact 9 0).id .findValue
            ((serialize (latestKey Kademlia.Sample.crypto "a" "p")).getD []))
          (serveAll Kademlia.Sample.crypto Sample.alone
            [Sample.storing (.latest Kademlia.Sample.firstPointer) [Kademlia.Sample.first],
              Sample.storing (.latest Kademlia.Sample.secondPointer)
                [Kademlia.Sample.first, Kademlia.Sample.second]])).1 = some reply := by
  have hinj : Set.InjOn Kademlia.Sample.crypto.sha256 (hashed (storeBodies
      [Sample.storing (.latest Kademlia.Sample.firstPointer) [Kademlia.Sample.first],
        Sample.storing (.latest Kademlia.Sample.secondPointer)
          [Kademlia.Sample.first, Kademlia.Sample.second]])) := by
    refine (@Kademlia.Sample.injOn_hashed
      [Kademlia.Sample.body (.latest Kademlia.Sample.firstPointer) [Kademlia.Sample.first],
        Kademlia.Sample.body (.latest Kademlia.Sample.secondPointer)
          [Kademlia.Sample.first, Kademlia.Sample.second]] (by decide +kernel)).mono ?_
    rintro bs ⟨body, ⟨arrival, ha, sender, hp⟩, hbs⟩
    refine ⟨body, ?_, hbs⟩
    rcases List.mem_cons.mp ha with rfl | ha
    · exact List.mem_cons.mpr (Or.inl (Sample.body_of_parsed hp))
    · rw [List.mem_singleton.mp ha] at hp
      exact List.mem_cons_of_mem _ (List.mem_singleton.mpr (Sample.body_of_parsed hp))
  obtain ⟨later, -, hserved⟩ := acknowledged_is_served Kademlia.Sample.crypto Sample.alone
    (fun _ => rfl) [] [Sample.storing (.latest Kademlia.Sample.secondPointer)
      [Kademlia.Sample.first, Kademlia.Sample.second]] _ hinj _ _
    ⟨latestKey Kademlia.Sample.crypto "a" "p", .latest Kademlia.Sample.firstPointer,
      [Kademlia.Sample.first]⟩
    (Sample.parsed_storing _ _) (by decide +kernel) (by decide +kernel)
  obtain ⟨reply, hreply, hread⟩ := hserved 7 (Table.contact 9 1000).address
    (Table.contact 9 0).id (by decide)
  exact ⟨later, reply, hread, congrArg Prod.fst hreply⟩

end HandleRpc

end Kademlia
