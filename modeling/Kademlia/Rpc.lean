import Kademlia.Package

/-!
# Calling other nodes

A node calls peers it does not trust, over a network that loses and delays.
Several calls are in flight at once and complete in any order, each with
whatever bytes or error the outside makes of it. Other tasks of the node use
the same routing table meanwhile.

All of this is one structure of functions on a state, `Outside`: which of
the calls in flight completes next and how, and what DNS answers, with the
routing table and everything else outside as the state may have become. A
result about every `Outside` is a result about every peer behaviour, every
completion order, and every use of the table in between.
-/

namespace Kademlia

/-- The four calls. -/
inductive Method where
  /-- Is the peer there. -/
  | ping
  /-- Store a value. -/
  | store
  /-- Which contacts are closest to an id. -/
  | findNode
  /-- What is stored under a key. -/
  | findValue
deriving DecidableEq

/-- The bytes a request of a method starts with. -/
def Method.tag : Method → List UInt8
  | .ping => Codec.textBytes "PING"
  | .store => Codec.textBytes "STORE"
  | .findNode => Codec.textBytes "FIND_NODE"
  | .findValue => Codec.textBytes "FIND_VALUE"

/-- The answer to a value query: the value, or closer contacts. -/
inductive FindValue where
  /-- The peer holds the value. -/
  | value (value : Value)
  /-- It does not, and knows these. -/
  | closest (contacts : List Contact)
deriving DecidableEq

instance {T : Type} [Serialize T] : Serialize (List T) := ⟨Serialize.codec.vec⟩

instance : Serialize SocketAddr :=
  ⟨(((Codec.byte.array 4).prod Codec.u16).sum ((Codec.byte.array 16).prod Codec.u16)).imap
    (fun x => match x with
      | .inl p => .v4 p.1 p.2
      | .inr p => .v6 p.1 p.2)
    (fun a => match a with
      | .v4 ip port => .inl (ip, port)
      | .v6 ip port => .inr (ip, port))
    (fun a => by cases a <;> rfl)⟩

instance : Serialize Contact :=
  ⟨((Codec.byte.array idBytes).prod Serialize.codec).imap
    (fun p => ⟨p.1, p.2⟩) (fun c => (c.id, c.address)) (fun _ => rfl)⟩

instance : Serialize FindValue :=
  ⟨(Codec.sum Serialize.codec (Serialize.codec (T := List Contact))).imap
    (fun x => match x with
      | .inl v => .value v
      | .inr contacts => .closest contacts)
    (fun r => match r with
      | .value v => .inl v
      | .closest contacts => .inr contacts)
    (fun r => by cases r <;> rfl)⟩

/-- How a call fails. -/
inductive ErrorKind where
  /-- No answer in time. -/
  | timedOut
  /-- Nobody listens. -/
  | connectionRefused
  /-- The peer hung up. -/
  | connectionReset
  /-- Anything else. -/
  | other
deriving DecidableEq

/-- Whether a failed call says that the peer is gone. -/
def peerIsGone : ErrorKind → Bool
  | .timedOut | .connectionRefused | .connectionReset => true
  | .other => false

/-- A call in flight. -/
structure Request where
  /-- Whom it was sent to. -/
  peer : SocketAddr
  /-- What was sent. -/
  payload : List UInt8
deriving DecidableEq

/-- The state outside a lookup: the routing table, which other tasks use too,
and everything beyond the node. -/
structure World (τ ν : Type) where
  /-- The routing table. -/
  table : τ
  /-- The network, the peers, and the other tasks. -/
  net : ν

/-- **Everything a node does not control.** -/
structure Outside (τ ν : Type) where
  /-- Which of the calls in flight completes next, and how. -/
  settle : World τ ν → List Request → ℕ × Except ErrorKind (List UInt8) × World τ ν
  /-- What DNS answers for a domain. -/
  getDnsVk : World τ ν → String → Option VerifyingKey × World τ ν

/-- The client half of a node. -/
structure Rpc (τ ν : Type) where
  /-- Us, as peers should record us. -/
  myContact : Contact
  /-- What we call. -/
  outside : Outside τ ν

namespace Rpc

variable {τ ν : Type} [CloseNodes τ]

/-- Drop a contact from the table as gone, unless the table holds `K` or
fewer contacts. -/
def forget (table : τ) (contact : Contact) : τ :=
  if K < ((CloseNodes.contactsIter table).map Contact.id).dedup.length
  then CloseNodes.removeContact table contact else table

/-- What becomes of a call that completed: the reply, or nothing, in which
case a peer that is gone is forgotten. -/
def finish (known : Contact) (outcome : Except ErrorKind (List UInt8)) (world : World τ ν) :
    Option (List UInt8) × World τ ν :=
  match outcome with
  | .ok reply => (some reply, world)
  | .error e =>
    (none, if peerIsGone e then { world with table := forget world.table known } else world)

variable (rpc : Rpc τ ν)

/-- A request to a contact: our id, the method's tag, the body. -/
def request (method : Method) (body : List UInt8) (contact : Contact) : Request :=
  ⟨contact.address, rpc.myContact.id.toList ++ method.tag ++ body⟩

/-- Wait for the next of the calls in flight to the contacts `asked`: whom it
was to, its reply, and the calls still in flight. There is none if no call is
in flight. A position past the end counts from the front again. -/
def next (method : Method) (body : List UInt8) (asked : List Contact) (world : World τ ν) :
    Option ((Contact × Option (List UInt8)) × List Contact × World τ ν) :=
  let (i, outcome, world) := rpc.outside.settle world (asked.map (rpc.request method body))
  match asked[i % asked.length]? with
  -- only where nothing is in flight
  | none => none
  | some contact =>
    let (reply, world) := finish contact outcome world
    some ((contact, reply), asked.eraseIdx (i % asked.length), world)

/-- The contacts in a reply to a node query: none if there is no reply, or it
does not decode. -/
def nodesIn (reply : Option (List UInt8)) : List Contact :=
  match reply with
  | none => []
  | some bytes => (deserialize bytes : Option (List Contact)).getD []

/-- The answer in a reply to a value query. -/
def answerIn (reply : Option (List UInt8)) : FindValue :=
  match reply with
  | none => .closest []
  | some bytes => (deserialize bytes : Option FindValue).getD (.closest [])

/-- Offer contacts to the routing table. -/
def offer (contacts : List Contact) (world : World τ ν) : World τ ν :=
  { world with table := contacts.foldl CloseNodes.maybeAddContact world.table }

/-- The key of a domain's owner. -/
def getDnsVk (domain : String) (world : World τ ν) : Option VerifyingKey × World τ ν :=
  rpc.outside.getDnsVk world domain

/-! ## What completes -/

variable {rpc}

/-- Nothing completes exactly when nothing is in flight. -/
theorem next_eq_none_iff {method : Method} {body : List UInt8} {asked : List Contact}
    {world : World τ ν} : rpc.next method body asked world = none ↔ asked = [] := by
  unfold next
  cases asked with
  | nil => simp
  | cons c asked =>
    have hlt : (rpc.outside.settle world ((c :: asked).map (rpc.request method body))).1
        % (c :: asked).length < (c :: asked).length := Nat.mod_lt _ (Nat.succ_pos _)
    dsimp only
    rw [List.getElem?_eq_getElem hlt]
    simp

/-- **A completion takes one call out of those in flight.** -/
theorem next_eq_some {method : Method} {body : List UInt8} {asked rest : List Contact}
    {world world' : World τ ν} {contact : Contact} {reply : Option (List UInt8)}
    (h : rpc.next method body asked world = some ((contact, reply), rest, world')) :
    contact ∈ asked ∧ rest.length + 1 = asked.length ∧ rest ⊆ asked := by
  unfold next at h
  dsimp only at h
  split at h
  · cases h
  · next c hget =>
    cases h
    obtain ⟨hlt, rfl⟩ := List.getElem?_eq_some_iff.mp hget
    refine ⟨List.getElem_mem hlt, ?_, List.eraseIdx_subset⟩
    rw [List.length_eraseIdx_of_lt hlt]
    omega

/-- The call that completes and those still in flight are the calls there
were. -/
theorem next_perm {method : Method} {body : List UInt8} {asked rest : List Contact}
    {world world' : World τ ν} {contact : Contact} {reply : Option (List UInt8)}
    (h : rpc.next method body asked world = some ((contact, reply), rest, world')) :
    (contact :: rest).Perm asked := by
  unfold next at h
  dsimp only at h
  split at h
  · cases h
  · next c hget =>
    cases h
    obtain ⟨hlt, rfl⟩ := List.getElem?_eq_some_iff.mp hget
    exact List.getElem_cons_eraseIdx_perm hlt

end Rpc

end Kademlia
