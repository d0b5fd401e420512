import Kademlia.Rpc

/-!
# Messages on the wire

Every message starts with an id in eight bytes, highest first. The caller
draws it, with the top bit clear; the reply carries it back with the top bit
set. One socket receives both, and the top bit is all that tells a reply from
a request (`isReply`): ids are drawn by the sender, and a peer's request may
well carry the number of one of ours.

After the id, a request carries the sender's id, the tag of its method and the
body, none of them with a length. Reading that back needs no more than that no
tag starts another (`Method.splitTag_append`).

A datagram is received into a buffer of a fixed size, and what does not fit is
lost. A connection carries one request and one reply, and is read to its end.
-/

namespace Kademlia

/-! ## Ids

The program masks the top bit on and off. Told bit by bit, a request's id is
any number with the bit clear, a reply's id the same with the bit set, and each
gives back the other; so the pool of waiting requests, which is keyed by the
first, can be asked with the second. -/

/-- The bit set on the id of a reply. -/
def replyTag : UInt64 := (1 : UInt64) <<< 63

/-- The id to send a request under: the bit cleared. -/
def requestId (id : UInt64) : UInt64 := id &&& ~~~replyTag

/-- The id to answer a request under: the bit set. -/
def replyId (id : UInt64) : UInt64 := id ||| replyTag

/-- Whether an id marks a reply. -/
def isReply (id : UInt64) : Bool := id &&& replyTag != 0

theorem eq_of_bits {a b : UInt64} (h : ∀ i, a.toBitVec.getLsbD i = b.toBitVec.getLsbD i) :
    a = b :=
  UInt64.eq_of_toBitVec_eq (BitVec.eq_of_getLsbD_eq (fun i _ => h i))

theorem getLsbD_replyTag (i : ℕ) : replyTag.toBitVec.getLsbD i = decide (i = 63) := by
  have h : replyTag.toBitVec = BitVec.twoPow 64 63 := by decide
  rw [h, BitVec.getLsbD_twoPow]
  simp [eq_comm]

theorem getLsbD_requestId (id : UInt64) (i : ℕ) :
    (requestId id).toBitVec.getLsbD i = (id.toBitVec.getLsbD i && !decide (i = 63)) := by
  unfold requestId
  rw [UInt64.toBitVec_and, UInt64.toBitVec_not, BitVec.getLsbD_and, BitVec.getLsbD_not,
    getLsbD_replyTag]
  by_cases hi : i < 64
  · simp [hi]
  · simp [BitVec.getLsbD_of_ge _ _ (not_lt.mp hi)]

theorem getLsbD_replyId (id : UInt64) (i : ℕ) :
    (replyId id).toBitVec.getLsbD i = (id.toBitVec.getLsbD i || decide (i = 63)) := by
  unfold replyId
  rw [UInt64.toBitVec_or, BitVec.getLsbD_or, getLsbD_replyTag]

theorem isReply_eq (id : UInt64) : isReply id = id.toBitVec.getLsbD 63 := by
  have hbit : ∀ i, (id &&& replyTag).toBitVec.getLsbD i
      = (id.toBitVec.getLsbD i && decide (i = 63)) := by
    intro i
    rw [UInt64.toBitVec_and, BitVec.getLsbD_and, getLsbD_replyTag]
  unfold isReply
  cases h : id.toBitVec.getLsbD 63 with
  | true =>
    rw [bne_iff_ne]
    intro hzero
    have htop := hbit 63
    rw [hzero, h] at htop
    exact absurd htop (by decide)
  | false =>
    have hzero : id &&& replyTag = 0 := by
      refine eq_of_bits (fun i => (hbit i).trans ?_)
      by_cases hi : i = 63
      · rw [hi, h]
        rfl
      · simp [hi]
    rw [hzero]
    rfl

@[simp] theorem isReply_replyId (id : UInt64) : isReply (replyId id) = true := by
  rw [isReply_eq, getLsbD_replyId]
  simp

@[simp] theorem isReply_requestId (id : UInt64) : isReply (requestId id) = false := by
  rw [isReply_eq, getLsbD_requestId]
  simp

/-- **A reply's id gives back the request's.** -/
theorem requestId_replyId {id : UInt64} (h : isReply id = false) :
    requestId (replyId id) = id := by
  rw [isReply_eq] at h
  refine eq_of_bits (fun i => ?_)
  rw [getLsbD_requestId, getLsbD_replyId]
  by_cases hi : i = 63
  · rw [hi, h]
    rfl
  · simp [hi]

/-- The request's id gives back the reply's. -/
theorem replyId_requestId {id : UInt64} (h : isReply id = true) : replyId (requestId id) = id := by
  rw [isReply_eq] at h
  refine eq_of_bits (fun i => ?_)
  rw [getLsbD_replyId, getLsbD_requestId]
  by_cases hi : i = 63
  · rw [hi, h]
    rfl
  · simp [hi]

/-- Number of bytes an id takes. -/
def idLen : ℕ := 8

/-- An id as bytes, highest first. -/
def toBeBytes (id : UInt64) : List UInt8 := Bytes.ofNat idLen id.toNat

/-- The id that bytes spell. -/
def fromBeBytes (bytes : List UInt8) : UInt64 := UInt64.ofNat (Bytes.value bytes)

@[simp] theorem length_toBeBytes (id : UInt64) : (toBeBytes id).length = idLen :=
  Bytes.length_ofNat _ _

@[simp] theorem fromBeBytes_toBeBytes (id : UInt64) : fromBeBytes (toBeBytes id) = id := by
  unfold fromBeBytes toBeBytes
  rw [Bytes.value_ofNat, Nat.mod_eq_of_lt (show id.toNat < 256 ^ idLen from id.toNat_lt)]
  exact UInt64.ofNat_toNat

theorem toBeBytes_fromBeBytes {bytes : List UInt8} (h : bytes.length = idLen) :
    toBeBytes (fromBeBytes bytes) = bytes := by
  have hlt : Bytes.value bytes < 2 ^ 64 := by
    have := Bytes.value_lt bytes
    rwa [h] at this
  unfold fromBeBytes toBeBytes
  rw [UInt64.toNat_ofNat_of_lt' hlt, Bytes.ofNat_value h]

/-! ## Requests

The tags are `PING`, `STORE`, `FIND_NODE` and `FIND_VALUE`, looked for in this
order and not followed by a length. The two that begin alike differ before
either ends. -/

namespace Method

/-- The methods, in the order a tag is looked for. -/
def all : List Method := [.ping, .store, .findNode, .findValue]

/-- Split the tag off a payload. -/
def splitTag (payload : List UInt8) : Option (Method × List UInt8) :=
  all.findSome? (fun method =>
    if method.tag.isPrefixOf payload then some (method, payload.drop method.tag.length) else none)

/-- **A tag is read back, whatever body follows**: no tag starts another. -/
theorem splitTag_append (method : Method) (body : List UInt8) :
    splitTag (method.tag ++ body) = some (method, body) := by
  have htags : ping.tag = [80, 73, 78, 71] ∧ store.tag = [83, 84, 79, 82, 69]
      ∧ findNode.tag = [70, 73, 78, 68, 95, 78, 79, 68, 69]
      ∧ findValue.tag = [70, 73, 78, 68, 95, 86, 65, 76, 85, 69] := by decide +kernel
  obtain ⟨hping, hstore, hnode, hvalue⟩ := htags
  unfold splitTag all
  cases method <;> simp [hping, hstore, hnode, hvalue]

end Method

/-- Split bytes at a position, if there are that many. -/
def splitAtChecked (n : ℕ) (bytes : List UInt8) : Option (List UInt8 × List UInt8) :=
  if n ≤ bytes.length then some (bytes.take n, bytes.drop n) else none

theorem splitAtChecked_append {n : ℕ} {front : List UInt8} (h : front.length = n)
    (rest : List UInt8) : splitAtChecked n (front ++ rest) = some (front, rest) := by
  unfold splitAtChecked
  rw [if_pos (by rw [List.length_append]; omega), List.take_left' h, List.drop_left' h]

namespace HandleRpc

/-- A request that came in. -/
structure Request where
  /-- The id its sender gave it. -/
  id : UInt64
  /-- Where it came from, and where the reply goes. -/
  source : SocketAddr
  /-- Whether the sender can be reached at that address. -/
  fromIsReachable : Bool
  /-- The request, without its id. -/
  payload : List UInt8
deriving DecidableEq

/-- A request off a datagram, whose sender is reached where it came from. -/
def Request.fromDatagram (source : SocketAddr) (datagram : List UInt8) : Option Request :=
  (splitAtChecked idLen datagram).map (fun p => ⟨fromBeBytes p.1, source, true, p.2⟩)

/-- A request off a connection, which was dialled from a port of its own. -/
def Request.fromConnection (source : SocketAddr) (datagram : List UInt8) : Option Request :=
  (Request.fromDatagram source datagram).map (fun r => { r with fromIsReachable := false })

/-- Strip the sender's id and the tag off a payload. -/
def parseFramed (payload : List UInt8) : Option (NodeId × Method × List UInt8) :=
  if h : idBytes ≤ payload.length then
    (Method.splitTag (payload.drop idBytes)).map (fun p =>
      (⟨payload.take idBytes, List.length_take_of_le h⟩, p.1, p.2))
  else none

/-- Frame the reply to a request. -/
def frameReply (id : UInt64) (body : List UInt8) : List UInt8 := toBeBytes (replyId id) ++ body

/-- **A payload is parsed into what it was made of**, whatever the body. The
sender's id is of fixed width, and a body that happens to begin with a tag is
behind the tag that counts. -/
theorem parseFramed_append (sender : NodeId) (method : Method) (body : List UInt8) :
    parseFramed (sender.toList ++ method.tag ++ body) = some (sender, method, body) := by
  have hlen : idBytes ≤ (sender.toList ++ method.tag ++ body).length := by
    rw [List.length_append, List.length_append, sender.toList_length]
    omega
  unfold parseFramed
  rw [dif_pos hlen]
  simp only [List.append_assoc, List.take_left' sender.toList_length,
    List.drop_left' sender.toList_length, Method.splitTag_append]
  rfl

end HandleRpc

/-- Frame a request. -/
def frameRequest (id : UInt64) (payload : List UInt8) : List UInt8 := toBeBytes id ++ payload

/-- A framed request is taken apart again. -/
theorem fromDatagram_frameRequest (source : SocketAddr) (id : UInt64) (payload : List UInt8) :
    HandleRpc.Request.fromDatagram source (frameRequest id payload)
      = some ⟨id, source, true, payload⟩ := by
  unfold HandleRpc.Request.fromDatagram frameRequest
  rw [splitAtChecked_append (length_toBeBytes id), Option.map_some, fromBeBytes_toBeBytes]

/-- A request off a connection is taken apart alike. -/
theorem fromConnection_frameRequest (source : SocketAddr) (id : UInt64) (payload : List UInt8) :
    HandleRpc.Request.fromConnection source (frameRequest id payload)
      = some ⟨id, source, false, payload⟩ := by
  unfold HandleRpc.Request.fromConnection
  rw [fromDatagram_frameRequest]
  rfl

/-! ## Datagrams

A datagram is read into a buffer of `receiveBuffer` bytes and what does not fit
is cut off without notice, so a message that is too long arrives as a different
one. What is said here about messages is said about those that fit, or about
the bytes that were received. -/

/-- How much of a datagram is received. -/
def receiveBuffer : ℕ := 1024

/-- What the receive loop makes of a datagram. -/
inductive Inbound where
  /-- Too short to carry an id. -/
  | dropped
  /-- Someone asks us. -/
  | request (request : HandleRpc.Request)
  /-- Someone answers the request of an id. -/
  | reply (id : UInt64) (payload : List UInt8)
deriving DecidableEq

/-- Read a datagram: a reply if its id is marked as one, and else a request. -/
def inbound (source : SocketAddr) (datagram : List UInt8) : Inbound :=
  let buf := datagram.take receiveBuffer
  if buf.length < idLen then .dropped
  else
    let id := fromBeBytes (buf.take idLen)
    if !isReply id then
      match HandleRpc.Request.fromDatagram source buf with
      | none => .dropped
      | some request => .request request
    else .reply (requestId id) (buf.drop idLen)

/-- **Which datagrams are replies**: those that start with the id of a reply.
What was received after it is handed on. Nothing else in a datagram is looked
at, and neither is where it came from; that is for the pool to check. -/
theorem inbound_eq_reply_iff {source : SocketAddr} {datagram : List UInt8} {id : UInt64}
    {payload : List UInt8} :
    inbound source datagram = .reply id payload
      ↔ isReply id = false ∧ datagram.take idLen = toBeBytes (replyId id)
        ∧ payload = (datagram.take receiveBuffer).drop idLen := by
  have htake : (datagram.take receiveBuffer).take idLen = datagram.take idLen := by
    rw [List.take_take]
    rfl
  unfold inbound
  dsimp only
  rw [htake]
  constructor
  · intro h
    split at h
    · cases h
    · next hlong =>
      have hlen : (datagram.take idLen).length = idLen := by
        rw [List.length_take] at hlong ⊢
        omega
      split at h
      · split at h <;> cases h
      · next htag =>
        have hreply : isReply (fromBeBytes (datagram.take idLen)) = true := by simpa using htag
        cases h
        refine ⟨isReply_requestId _, ?_, rfl⟩
        rw [replyId_requestId hreply, toBeBytes_fromBeBytes hlen]
  · rintro ⟨hid, hfront, rfl⟩
    have hlong : ¬ (datagram.take receiveBuffer).length < idLen := by
      have hlen := congrArg List.length hfront
      rw [length_toBeBytes, List.length_take] at hlen
      rw [List.length_take]
      have : idLen ≤ receiveBuffer := by decide
      omega
    rw [if_neg hlong, hfront, fromBeBytes_toBeBytes, isReply_replyId, requestId_replyId hid]
    rfl

/-- **A request that fits the buffer is received.** -/
theorem inbound_frameRequest {id : UInt64} (hid : isReply id = false) (source : SocketAddr)
    {payload : List UInt8} (hfit : idLen + payload.length ≤ receiveBuffer) :
    inbound source (frameRequest id payload) = .request ⟨id, source, true, payload⟩ := by
  have hlen : (frameRequest id payload).length = idLen + payload.length := by
    unfold frameRequest
    rw [List.length_append, length_toBeBytes]
  have hfront : (frameRequest id payload).take idLen = toBeBytes id :=
    List.take_left' (length_toBeBytes id)
  unfold inbound
  rw [List.take_of_length_le (hlen.trans_le hfit)]
  dsimp only
  rw [if_neg (by omega), hfront, fromBeBytes_toBeBytes, hid, fromDatagram_frameRequest]
  rfl

/-- **A reply that fits the buffer is received, under the id of its request.** -/
theorem inbound_frameReply {id : UInt64} (hid : isReply id = false) (source : SocketAddr)
    {body : List UInt8} (hfit : idLen + body.length ≤ receiveBuffer) :
    inbound source (HandleRpc.frameReply id body) = .reply id body := by
  have hlen : (HandleRpc.frameReply id body).length = idLen + body.length := by
    unfold HandleRpc.frameReply
    rw [List.length_append, length_toBeBytes]
  refine inbound_eq_reply_iff.mpr ⟨hid, List.take_left' (length_toBeBytes _), ?_⟩
  rw [List.take_of_length_le (hlen.trans_le hfit)]
  exact (List.drop_left' (length_toBeBytes _)).symm

/-! ## Connections

A connection carries one request and its reply, and has no buffer to overflow.
The id is still checked, though there is only one it could be. -/

/-- Read the reply off a connection: the id has to be the one sent. -/
def streamReply (id : UInt64) (received : List UInt8) : Except ErrorKind (List UInt8) :=
  match splitAtChecked idLen received with
  | none => .error .other
  | some (idBytes, body) =>
    if requestId (fromBeBytes idBytes) ≠ id then .error .other else .ok body

/-- **The reply to a request is read off its connection.** -/
theorem streamReply_frameReply {id : UInt64} (hid : isReply id = false) (body : List UInt8) :
    streamReply id (HandleRpc.frameReply id body) = .ok body := by
  unfold streamReply HandleRpc.frameReply
  rw [splitAtChecked_append (length_toBeBytes _)]
  dsimp only
  rw [fromBeBytes_toBeBytes, requestId_replyId hid, if_neg (not_not.mpr rfl)]

end Kademlia
