import Kademlia.CloseNodes
import Kademlia.Oneshot

/-!
# Requests that wait for a reply

Every request registers its id with the peer it is sent to, and gets a response
to wait for. Who receives a datagram delivers it by id: the slot of that id is
taken out of the pool, if the peer is the one expected, and its channel is sent
the reply. A response that is dropped deregisters its id.

It deregisters whatever is under its id. A delivery vacates the id while the
response it went to is still there, and the id may then be registered again;
when the first response is dropped while the second still waits, the slot of
the second goes with it, and the second waits for nothing. A second delivery in
between does no harm, since then there is no slot left to take.
`waiting_keep_slots_iff` says exactly when nothing is taken.
-/

namespace Kademlia

/-- A request that waits. -/
structure PendingSlot where
  /-- Who is to answer it. -/
  expectedPeer : SocketAddr
  /-- The channel the reply goes to. -/
  tx : ℕ
deriving DecidableEq

/-- The half of a registered request that is waited for. -/
structure PendingResponse where
  /-- The id registered. -/
  id : UInt64
  /-- The channel the reply comes from. -/
  rx : ℕ
deriving DecidableEq

/-- The pool of requests that wait, and the channels made for them so far. -/
structure Pending where
  /-- The slots, by id. -/
  slots : UInt64 → Option PendingSlot
  /-- The channels. -/
  channels : List (Oneshot (List UInt8))

namespace Pending

/-- A pool in which nothing waits. -/
def new : Pending := ⟨fun _ => none, []⟩

/-- Register an id, unless it is in use. -/
def register (pending : Pending) (id : UInt64) (expectedPeer : SocketAddr) :
    Option PendingResponse × Pending :=
  match pending.slots id with
  | none =>
    (some ⟨id, pending.channels.length⟩,
      ⟨Function.update pending.slots id (some ⟨expectedPeer, pending.channels.length⟩),
        pending.channels ++ [Oneshot.channel]⟩)
  | some _ => (none, pending)

/-- Take the slot of an id out of the pool, if it expects this peer. -/
def take (pending : Pending) (id : UInt64) (source : SocketAddr) :
    Option PendingSlot × Pending :=
  match pending.slots id with
  | none => (none, pending)
  | some slot =>
    if slot.expectedPeer = source
    then (some slot, { pending with slots := Function.update pending.slots id none })
    else (none, pending)

/-- Send a reply into the channel of a slot that was taken out. -/
def send (pending : Pending) (tx : ℕ) (payload : List UInt8) : Bool × Pending :=
  match pending.channels[tx]? with
  | none => (false, pending)
  | some channel =>
    let (arrived, channel) := channel.send payload
    (arrived, { pending with channels := pending.channels.set tx channel })

/-- Hand a reply to whoever waits for the id, if it came from the peer
expected. -/
def deliver (pending : Pending) (id : UInt64) (source : SocketAddr) (payload : List UInt8) :
    Bool × Pending :=
  match pending.take id source with
  | (none, pending) => (false, pending)
  | (some slot, pending) => pending.send slot.tx payload

/-- Drop a response: its id is deregistered, and then it no longer receives. -/
def drop (pending : Pending) (response : PendingResponse) : Pending :=
  let pending := match pending.slots response.id with
    | none => pending
    -- a sender that is dropped with its slot closes the channel
    | some slot =>
      ⟨Function.update pending.slots response.id none,
        pending.channels.modify slot.tx Oneshot.dropSender⟩
  { pending with channels := pending.channels.modify response.rx Oneshot.dropReceiver }

/-- What a response that is waited for yields: nothing yet, the reply, or that
there will be none. -/
def poll (pending : Pending) (response : PendingResponse) : Option (Option (List UInt8)) :=
  match pending.channels[response.rx]? with
  | none => some none
  | some channel => channel.poll

/-- What was sent into a channel. -/
def value (pending : Pending) (rx : ℕ) : Option (List UInt8) :=
  (pending.channels[rx]?).bind Oneshot.value

/-- A response has its own slot in the pool. -/
def HasSlot (pending : Pending) (response : PendingResponse) : Prop :=
  ∃ peer, pending.slots response.id = some ⟨peer, response.rx⟩

/-- A response was delivered to. -/
def Delivered (pending : Pending) (response : PendingResponse) : Prop :=
  ∃ payload, pending.poll response = some (some payload)

/-! ## What holds throughout

The pool is looked at together with the responses that are alive, and with the
sender in the hands of whoever delivers, if one was taken out of its slot and
has not sent yet. -/

/-- **A pool in order.** -/
structure Ok (pending : Pending) (alive : Set PendingResponse) (taken : Option ℕ) : Prop where
  /-- A channel has one response. -/
  inj : ∀ r ∈ alive, ∀ r' ∈ alive, r.rx = r'.rx → r = r'
  /-- A slot is of a response that is alive, and nothing came of it yet. -/
  slot : ∀ id s, pending.slots id = some s → ⟨id, s.tx⟩ ∈ alive
    ∧ pending.channels[s.tx]? = some Oneshot.channel ∧ taken ≠ some s.tx
  /-- A response that is alive receives, and as long as its channel has a sender
  this is in its slot or was taken out. -/
  alive : ∀ r ∈ alive, ∃ c, pending.channels[r.rx]? = some c ∧ c.hasReceiver = true
    ∧ (c.hasSender = true → pending.HasSlot r ∨ taken = some r.rx)
  /-- A sender that was taken out has not sent. -/
  taken : ∀ tx, taken = some tx → ∃ c, pending.channels[tx]? = some c ∧ c.value = none

variable {pending : Pending} {alive : Set PendingResponse} {taken : Option ℕ}

theorem ok_new : new.Ok ∅ none :=
  ⟨fun _ h => absurd h (Set.notMem_empty _), fun _ _ h => (nomatch h),
    fun _ h => absurd h (Set.notMem_empty _), fun _ h => (nomatch h)⟩

theorem register_of_free {id : UInt64} (h : pending.slots id = none) (peer : SocketAddr) :
    pending.register id peer
      = (some ⟨id, pending.channels.length⟩,
        ⟨Function.update pending.slots id (some ⟨peer, pending.channels.length⟩),
          pending.channels ++ [Oneshot.channel]⟩) := by
  unfold register
  rw [h]

/-- Registering a free id keeps the pool in order. -/
theorem Ok.register (h : pending.Ok alive taken) {id : UInt64} (hfree : pending.slots id = none)
    (peer : SocketAddr) :
    (pending.register id peer).2.Ok (alive ∪ {⟨id, pending.channels.length⟩}) taken := by
  have hlt : ∀ {i : ℕ} {c : Oneshot (List UInt8)}, pending.channels[i]? = some c →
      (pending.channels ++ [Oneshot.channel])[i]? = some c := fun hc =>
    (List.getElem?_append_left (List.getElem?_eq_some_iff.mp hc).1).trans hc
  have hnew : (pending.channels ++ [Oneshot.channel])[pending.channels.length]?
      = some (Oneshot.channel : Oneshot (List UInt8)) := by
    rw [List.getElem?_append_right le_rfl, Nat.sub_self]
    rfl
  have hrx : ∀ r ∈ alive, r.rx ≠ pending.channels.length := by
    intro r hr he
    obtain ⟨c, hc, -⟩ := h.alive r hr
    exact absurd (List.getElem?_eq_some_iff.mp hc).1 (by omega)
  rw [register_of_free hfree]
  refine ⟨?_, ?_, ?_, ?_⟩
  · rintro r (hr | rfl) r' (hr' | rfl) he
    · exact h.inj r hr r' hr' he
    · exact absurd he (hrx r hr)
    · exact absurd he.symm (hrx r' hr')
    · rfl
  · intro i s hs
    dsimp only at hs ⊢
    by_cases hi : i = id
    · subst hi
      rw [Function.update_self] at hs
      cases hs
      refine ⟨Or.inr rfl, hnew, fun ht => ?_⟩
      obtain ⟨c, hc, -⟩ := h.taken _ ht
      exact absurd (List.getElem?_eq_some_iff.mp hc).1 (lt_irrefl _)
    · rw [Function.update_of_ne hi] at hs
      obtain ⟨hr, hc, ht⟩ := h.slot i s hs
      exact ⟨Or.inl hr, hlt hc, ht⟩
  · rintro r (hr | rfl)
    · obtain ⟨c, hc, hrecv, hslot⟩ := h.alive r hr
      refine ⟨c, hlt hc, hrecv, fun hsend => (hslot hsend).imp_left ?_⟩
      rintro ⟨p, hp⟩
      refine ⟨p, (Function.update_of_ne (fun he => ?_) _ _).trans hp⟩
      rw [he, hfree] at hp
      cases hp
    · exact ⟨_, hnew, rfl, fun _ => Or.inl ⟨peer, Function.update_self ..⟩⟩
  · intro tx ht
    obtain ⟨c, hc, hv⟩ := h.taken tx ht
    exact ⟨c, hlt hc, hv⟩

/-- Taking a slot out keeps the pool in order. -/
theorem Ok.take (h : pending.Ok alive none) {id : UInt64} {slot : PendingSlot}
    (hslot : pending.slots id = some slot) :
    ({ pending with slots := Function.update pending.slots id none } : Pending).Ok alive
      (some slot.tx) := by
  obtain ⟨hmem, hopen, -⟩ := h.slot id slot hslot
  refine ⟨h.inj, fun i s hs => ?_, fun r hr => ?_, fun tx ht => ?_⟩
  · dsimp only at hs
    by_cases hi : i = id
    · rw [hi, Function.update_self] at hs
      cases hs
    · rw [Function.update_of_ne hi] at hs
      obtain ⟨hr, hc, -⟩ := h.slot i s hs
      refine ⟨hr, hc, fun ht => hi ?_⟩
      -- two slots with one channel are slots of one response
      exact congrArg PendingResponse.id (h.inj _ hr _ hmem (Option.some.inj ht).symm)
  · obtain ⟨c, hc, hrecv, hown⟩ := h.alive r hr
    refine ⟨c, hc, hrecv, fun hsend => ?_⟩
    obtain ⟨p, hp⟩ := (hown hsend).resolve_right (fun ht => (nomatch ht))
    by_cases hi : r.id = id
    · rw [hi, hslot] at hp
      exact Or.inr (congrArg (Option.map PendingSlot.tx) hp)
    · exact Or.inl ⟨p, (Function.update_of_ne hi _ _).trans hp⟩
  · cases ht
    exact ⟨_, hopen, rfl⟩

/-- Sending into a channel whose slot was taken out keeps the pool in order. -/
theorem Ok.send {tx : ℕ} (h : pending.Ok alive (some tx)) (payload : List UInt8) :
    (pending.send tx payload).2.Ok alive none := by
  obtain ⟨c, hc, hempty⟩ := h.taken tx rfl
  have hlt := (List.getElem?_eq_some_iff.mp hc).1
  unfold Pending.send
  rw [hc]
  refine ⟨h.inj, fun i s hs => ?_, fun r hr => ?_, fun _ ht => (nomatch ht)⟩
  · obtain ⟨hr, hopen, ht⟩ := h.slot i s hs
    refine ⟨hr, (List.getElem?_set_ne (fun he => ht (congrArg some he))).trans hopen,
      fun ht => (nomatch ht)⟩
  · obtain ⟨c', hc', hrecv, hown⟩ := h.alive r hr
    dsimp only
    by_cases hrx : r.rx = tx
    · rw [hrx] at hc' ⊢
      obtain rfl : c = c' := Option.some.inj (hc.symm.trans hc')
      refine ⟨_, List.getElem?_set_self hlt, (Oneshot.hasReceiver_send c payload).trans hrecv, ?_⟩
      rw [Oneshot.hasSender_send]
      exact fun hf => (nomatch hf)
    · refine ⟨c', (List.getElem?_set_ne (Ne.symm hrx)).trans hc', hrecv, fun hsend => Or.inl ?_⟩
      exact (hown hsend).resolve_right (fun ht => hrx (Option.some.inj ht).symm)

theorem slots_send (pending : Pending) (tx : ℕ) (payload : List UInt8) :
    (pending.send tx payload).2.slots = pending.slots := by
  unfold Pending.send
  cases pending.channels[tx]? with
  | none => rfl
  | some c => rfl

theorem length_channels_send (pending : Pending) (tx : ℕ) (payload : List UInt8) :
    (pending.send tx payload).2.channels.length = pending.channels.length := by
  unfold Pending.send
  cases pending.channels[tx]? with
  | none => rfl
  | some c => exact List.length_set

/-- What a drop leaves in the slots. -/
theorem slots_drop (pending : Pending) (r : PendingResponse) :
    (pending.drop r).slots = Function.update pending.slots r.id none := by
  unfold drop
  cases hs : pending.slots r.id with
  | none =>
    dsimp only
    rw [← hs, Function.update_eq_self]
  | some slot => rfl

/-- What a drop leaves in a channel: the receiver of the response is gone, and
the sender of the slot that was there. -/
theorem channels_drop (pending : Pending) (r : PendingResponse) (i : ℕ) :
    (pending.drop r).channels[i]? = (pending.channels[i]?).map (fun c =>
      ⟨c.value, c.hasSender && decide ((pending.slots r.id).map PendingSlot.tx ≠ some i),
        c.hasReceiver && decide (r.rx ≠ i)⟩) := by
  unfold drop
  cases pending.slots r.id with
  | none =>
    dsimp only
    rw [List.getElem?_modify]
    by_cases hi : r.rx = i <;> cases pending.channels[i]? <;> simp [hi, Oneshot.dropReceiver]
  | some slot =>
    dsimp only
    rw [List.getElem?_modify, List.getElem?_modify]
    by_cases hi : r.rx = i <;> by_cases ht : slot.tx = i <;> cases pending.channels[i]? <;>
      simp [hi, ht, Oneshot.dropReceiver, Oneshot.dropSender]

theorem length_channels_drop (pending : Pending) (r : PendingResponse) :
    (pending.drop r).channels.length = pending.channels.length := by
  unfold drop
  cases pending.slots r.id with
  | none => exact List.length_modify ..
  | some slot => exact (List.length_modify ..).trans (List.length_modify ..)

/-- Dropping a response keeps the pool in order. -/
theorem Ok.drop (h : pending.Ok alive taken) {r : PendingResponse} (hr : r ∈ alive) :
    (pending.drop r).Ok (alive \ {r}) taken := by
  have hsub : ∀ {r' : PendingResponse}, r' ∈ alive \ {r} → r' ∈ alive ∧ r.rx ≠ r'.rx :=
    fun hr' => ⟨hr'.1, fun he => hr'.2 (h.inj r hr _ hr'.1 he).symm⟩
  refine ⟨fun a ha b hb => h.inj a (hsub ha).1 b (hsub hb).1, fun i s hs => ?_,
    fun r' hr' => ?_, fun tx ht => ?_⟩
  · rw [slots_drop] at hs
    by_cases hi : i = r.id
    · rw [hi, Function.update_self] at hs
      cases hs
    · rw [Function.update_of_ne hi] at hs
      obtain ⟨hmem, hopen, ht⟩ := h.slot i s hs
      have hother : ∀ r' ∈ alive, r'.id ≠ i → r'.rx ≠ s.tx := fun r' hr' hid he =>
        hid (congrArg PendingResponse.id (h.inj r' hr' _ hmem he))
      have hsend : (pending.slots r.id).map PendingSlot.tx ≠ some s.tx := by
        intro he
        obtain ⟨s', hs', htx⟩ := Option.map_eq_some_iff.mp he
        exact hother _ (h.slot _ s' hs').1 (Ne.symm hi) htx
      refine ⟨⟨hmem, fun he => hi (congrArg PendingResponse.id he)⟩, ?_, ht⟩
      rw [channels_drop, hopen]
      simp [hsend, hother r hr (Ne.symm hi), Oneshot.channel]
  · obtain ⟨hmem, hrx⟩ := hsub hr'
    obtain ⟨c, hc, hrecv, hown⟩ := h.alive r' hmem
    have hdrop := channels_drop pending r r'.rx
    rw [hc] at hdrop
    refine ⟨_, hdrop, by simp [hrecv, hrx], fun hsend => ?_⟩
    rw [Bool.and_eq_true] at hsend
    refine (hown hsend.1).imp_left ?_
    rintro ⟨p, hp⟩
    refine ⟨p, ?_⟩
    rw [slots_drop, Function.update_of_ne, hp]
    -- the slot under the id would be its own, and its sender gone
    intro he
    rw [he] at hp
    simp [hp] at hsend
  · obtain ⟨c, hc, hv⟩ := h.taken tx ht
    have hdrop := channels_drop pending r tx
    rw [hc] at hdrop
    exact ⟨_, hdrop, hv⟩

theorem poll_of_channel {r : PendingResponse} {c : Oneshot (List UInt8)}
    (h : pending.channels[r.rx]? = some c) : pending.poll r = c.poll := by
  unfold poll
  rw [h]

/-- **A response that is alive waits in its slot, was delivered to, or is told
that there will be no reply.** Its channel has a sender or has none. With one,
the sender is in the slot; without, it was used up by a delivery or dropped
with the slot. -/
theorem Ok.hasSlot_or (h : pending.Ok alive none) {r : PendingResponse} (hr : r ∈ alive) :
    pending.HasSlot r ∨ pending.Delivered r ∨ pending.poll r = some none := by
  obtain ⟨c, hc, -, hown⟩ := h.alive r hr
  unfold Delivered
  rw [poll_of_channel hc]
  cases hv : c.value with
  | some payload => exact Or.inr (Or.inl ⟨payload, Oneshot.poll_eq_value_iff.mpr hv⟩)
  | none =>
    cases hsend : c.hasSender with
    | true => exact Or.inl ((hown hsend).resolve_right (fun ht => (nomatch ht)))
    | false => exact Or.inr (Or.inr (Oneshot.poll_eq_closed_iff.mpr ⟨hv, hsend⟩))

/-- The slot of an id expects this peer. -/
def Expects (pending : Pending) (id : UInt64) (source : SocketAddr) : Prop :=
  ∃ tx, pending.slots id = some ⟨source, tx⟩

theorem take_of_not_expects {id : UInt64} {source : SocketAddr}
    (h : ¬ pending.Expects id source) : pending.take id source = (none, pending) := by
  unfold Pending.take
  cases hs : pending.slots id with
  | none => rfl
  | some slot =>
    refine if_neg fun he => h ⟨slot.tx, ?_⟩
    rw [hs, ← he]

theorem take_of_slot {id : UInt64} {source : SocketAddr} {tx : ℕ}
    (hs : pending.slots id = some ⟨source, tx⟩) :
    pending.take id source
      = (some ⟨source, tx⟩, { pending with slots := Function.update pending.slots id none }) := by
  unfold Pending.take
  rw [hs]
  exact if_pos rfl

/-- A reply that no slot expects is not delivered. -/
theorem deliver_of_not_expects {id : UInt64} {source : SocketAddr}
    (h : ¬ pending.Expects id source) (payload : List UInt8) :
    pending.deliver id source payload = (false, pending) := by
  unfold deliver
  rw [take_of_not_expects h]

/-- **A reply from the peer a slot expects vacates the slot and is handed
over.** The response of a slot is alive, so its channel still receives, and the
delivery reports that it arrived. -/
theorem Ok.deliver_of_slot (h : pending.Ok alive none) {id : UInt64} {source : SocketAddr}
    {tx : ℕ} (hs : pending.slots id = some ⟨source, tx⟩) (payload : List UInt8) :
    pending.deliver id source payload
      = (true, ⟨Function.update pending.slots id none,
        pending.channels.set tx ⟨some payload, false, true⟩⟩) := by
  obtain ⟨-, hopen, -⟩ := h.slot id _ hs
  dsimp only at hopen
  unfold deliver
  rw [take_of_slot hs]
  unfold Pending.send
  dsimp only
  rw [hopen]
  rfl

/-- Delivering a reply keeps the pool in order. -/
theorem Ok.deliver (h : pending.Ok alive none) (id : UInt64) (source : SocketAddr)
    (payload : List UInt8) : (pending.deliver id source payload).2.Ok alive none := by
  by_cases hexp : pending.Expects id source
  · obtain ⟨tx, hs⟩ := hexp
    unfold Pending.deliver
    rw [take_of_slot hs]
    exact (h.take hs).send payload
  · rw [deliver_of_not_expects hexp]
    exact h

/-! What an operation lets the responses see. -/

/-- A response that is alive does not see another one registered. -/
theorem Ok.poll_register (h : pending.Ok alive taken) {r : PendingResponse} (hr : r ∈ alive)
    (id : UInt64) (peer : SocketAddr) : (pending.register id peer).2.poll r = pending.poll r := by
  obtain ⟨c, hc, -⟩ := h.alive r hr
  unfold Pending.register
  cases pending.slots id with
  | none =>
    rw [poll_of_channel hc]
    exact poll_of_channel ((List.getElem?_append_left (List.getElem?_eq_some_iff.mp hc).1).trans hc)
  | some slot => rfl

/-- A response sees a reply sent to it, and no other. -/
theorem Ok.poll_deliver (h : pending.Ok alive none) (r : PendingResponse) {id : UInt64}
    {source : SocketAddr} {tx : ℕ} (hs : pending.slots id = some ⟨source, tx⟩)
    (payload : List UInt8) :
    (pending.deliver id source payload).2.poll r
      = if tx = r.rx then some (some payload) else pending.poll r := by
  obtain ⟨-, hopen, -⟩ := h.slot id _ hs
  rw [h.deliver_of_slot hs]
  split
  · next he =>
    have hset : (pending.channels.set tx ⟨some payload, false, true⟩)[r.rx]?
        = some ⟨some payload, false, true⟩ := by
      rw [← he]
      exact List.getElem?_set_self (List.getElem?_eq_some_iff.mp hopen).1
    unfold poll
    dsimp only
    rw [hset]
    rfl
  · next he =>
    unfold poll
    dsimp only
    rw [List.getElem?_set_ne he]

/-- **A reply to a request just registered reaches its response.** -/
theorem poll_deliver_register {id : UInt64} (hfree : pending.slots id = none) (peer : SocketAddr)
    (payload : List UInt8) :
    ((pending.register id peer).2.deliver id peer payload).2.poll
      ⟨id, pending.channels.length⟩ = some (some payload) := by
  have hnew : (pending.channels ++ [Oneshot.channel])[pending.channels.length]?
      = some (Oneshot.channel : Oneshot (List UInt8)) := List.getElem?_concat_length
  rw [register_of_free hfree]
  unfold Pending.deliver
  rw [take_of_slot (Function.update_self ..)]
  unfold Pending.send
  dsimp only
  rw [hnew]
  unfold poll
  dsimp only
  rw [List.getElem?_set_self (List.getElem?_eq_some_iff.mp hnew).1]
  rfl

/-- A response that receives is not told by a reply that there will be none. -/
theorem poll_send {tx : ℕ} {r : PendingResponse} {c : Oneshot (List UInt8)}
    (hc : pending.channels[r.rx]? = some c) (hrecv : c.hasReceiver = true)
    (h : pending.poll r ≠ some none) (payload : List UInt8) :
    (pending.send tx payload).2.poll r ≠ some none := by
  unfold Pending.send
  cases htx : pending.channels[tx]? with
  | none => exact h
  | some c' =>
    by_cases hrx : tx = r.rx
    · rw [hrx, hc] at htx
      cases htx
      have hset : (pending.channels.set tx (c.send payload).2)[r.rx]?
          = some (c.send payload).2 := by
        rw [hrx]
        exact List.getElem?_set_self (List.getElem?_eq_some_iff.mp hc).1
      unfold poll
      dsimp only
      rw [hset]
      refine fun he => absurd (Oneshot.poll_eq_closed_iff.mp he).1 ?_
      rw [Oneshot.value_send, if_pos hrecv]
      exact Option.some_ne_none payload
    · unfold poll at h ⊢
      dsimp only
      rwa [List.getElem?_set_ne hrx]

/-- A response whose slot is not under the id of a dropped one does not see the
drop. -/
theorem poll_drop {r r' : PendingResponse}
    (h : (pending.slots r.id).map PendingSlot.tx ≠ some r'.rx) :
    (pending.drop r).poll r' = pending.poll r' := by
  unfold poll
  rw [channels_drop]
  cases pending.channels[r'.rx]? with
  | none => rfl
  | some c => simp [h, Oneshot.poll]

/-- **A response whose slot is under the id of a dropped one is told that there
will be no reply.** The sender goes with the slot, and the response is still
waiting for it. -/
theorem Ok.poll_drop_of_slot (h : pending.Ok alive taken) {r : PendingResponse}
    {slot : PendingSlot} (hs : pending.slots r.id = some slot) :
    (pending.drop r).poll ⟨r.id, slot.tx⟩ = some none := by
  obtain ⟨-, hopen, -⟩ := h.slot _ _ hs
  have hdrop := channels_drop pending r slot.tx
  rw [hopen, hs] at hdrop
  rw [poll_of_channel hdrop]
  simp [Oneshot.poll, Oneshot.channel]

/-! What an operation leaves in the channels. -/

theorem value_of_poll {r : PendingResponse} {payload : List UInt8}
    (h : pending.poll r = some (some payload)) : pending.value r.rx = some payload := by
  unfold poll at h
  unfold value
  cases hc : pending.channels[r.rx]? with
  | none =>
    rw [hc] at h
    cases h
  | some c =>
    rw [hc] at h
    exact Oneshot.poll_eq_value_iff.mp h

theorem value_register (pending : Pending) (id : UInt64) (peer : SocketAddr) (rx : ℕ) :
    (pending.register id peer).2.value rx = pending.value rx := by
  unfold Pending.register
  cases pending.slots id with
  | some slot => rfl
  | none =>
    unfold value
    dsimp only
    rcases lt_trichotomy rx pending.channels.length with h | rfl | h
    · rw [List.getElem?_append_left h]
    · rw [List.getElem?_append_right le_rfl, Nat.sub_self, List.getElem?_eq_none le_rfl]
      rfl
    · rw [List.getElem?_eq_none (by simpa using h), List.getElem?_eq_none h.le]

theorem value_drop (pending : Pending) (r : PendingResponse) (rx : ℕ) :
    (pending.drop r).value rx = pending.value rx := by
  unfold value
  rw [channels_drop]
  cases pending.channels[rx]? with
  | none => rfl
  | some c => rfl

/-- Only what is sent comes to be in a channel. -/
theorem value_send {tx rx : ℕ} {payload b : List UInt8}
    (h : (pending.send tx payload).2.value rx = some b) :
    pending.value rx = some b ∨ (tx = rx ∧ payload = b) := by
  unfold Pending.send at h
  cases hc : pending.channels[tx]? with
  | none =>
    rw [hc] at h
    exact Or.inl h
  | some c =>
    rw [hc] at h
    unfold value at h ⊢
    dsimp only at h
    by_cases hrx : tx = rx
    · rw [hrx] at hc h
      rw [List.getElem?_set_self (List.getElem?_eq_some_iff.mp hc).1, Option.bind_some,
        Oneshot.value_send] at h
      rw [hc]
      split at h
      · exact Or.inr ⟨hrx, Option.some.inj h⟩
      · exact Or.inl h
    · rw [List.getElem?_set_ne hrx] at h
      exact Or.inl h

end Pending

/-! ## Runs of the pool

The three operations in any order, by any number of requests. A response is
handed out by a registration and dropped at most once. Ids are the caller's to
choose, and nothing keeps two requests that are alive at once from having had
the same. -/

/-- What is done with the pool. -/
inductive PoolOp where
  | register (id : UInt64) (expectedPeer : SocketAddr)
  | deliver (id : UInt64) (source : SocketAddr) (payload : List UInt8)
  | drop (response : PendingResponse)

/-- The pool, and the responses handed out that were not dropped yet. -/
structure Pool where
  /-- The pool of slots. -/
  pending : Pending
  /-- The responses that are alive. -/
  alive : List PendingResponse

namespace Pool

/-- Before the first request. -/
def init : Pool := ⟨Pending.new, []⟩

/-- What one operation leaves. Only a response that is alive can be dropped. -/
def apply (pool : Pool) : PoolOp → Pool
  | .register id expectedPeer =>
    let (response, pending) := pool.pending.register id expectedPeer
    ⟨pending, response.toList ++ pool.alive⟩
  | .deliver id source payload =>
    { pool with pending := (pool.pending.deliver id source payload).2 }
  | .drop response =>
    if response ∈ pool.alive
    then ⟨pool.pending.drop response, pool.alive.filter (· ≠ response)⟩
    else pool

/-- What a sequence of operations leaves. -/
def run (pool : Pool) (ops : List PoolOp) : Pool := ops.foldl apply pool

/-- **Every response that waits keeps its slot**, and is not told that there will
be no reply. -/
def Waits (pool : Pool) : Prop :=
  ∀ r ∈ pool.alive, ¬ pool.pending.Delivered r →
    pool.pending.HasSlot r ∧ pool.pending.poll r ≠ some none

/-- **An operation that takes no slot but its own**: at the drop of a response
that is alive there is no slot under its id, or it is the one the response
registered. -/
def Spares (pool : Pool) : PoolOp → Prop
  | .drop response => response ∈ pool.alive →
    ∀ slot, pool.pending.slots response.id = some slot → slot.tx = response.rx
  | _ => True

/-- A pool in order, with the responses that are alive. -/
def Ok (pool : Pool) : Prop := pool.pending.Ok {r | r ∈ pool.alive} none

theorem ok_init : init.Ok := by
  have hempty : {r | r ∈ init.alive} = ∅ := Set.eq_empty_of_forall_notMem fun _ h => (nomatch h)
  unfold Ok
  rw [hempty]
  exact Pending.ok_new

variable {pool : Pool}

theorem apply_register_of_free {id : UInt64} (h : pool.pending.slots id = none)
    (peer : SocketAddr) :
    pool.apply (.register id peer)
      = ⟨⟨Function.update pool.pending.slots id (some ⟨peer, pool.pending.channels.length⟩),
          pool.pending.channels ++ [Oneshot.channel]⟩,
        ⟨id, pool.pending.channels.length⟩ :: pool.alive⟩ := by
  simp only [apply, Pending.register_of_free h]
  rfl

theorem apply_register_of_used {id : UInt64} {slot : PendingSlot}
    (h : pool.pending.slots id = some slot) (peer : SocketAddr) :
    pool.apply (.register id peer) = pool := by
  simp only [apply, Pending.register, h]
  rfl

theorem apply_drop {r : PendingResponse} (h : r ∈ pool.alive) :
    pool.apply (.drop r) = ⟨pool.pending.drop r, pool.alive.filter (· ≠ r)⟩ :=
  if_pos h

theorem Ok.apply (h : pool.Ok) (op : PoolOp) : (pool.apply op).Ok := by
  cases op with
  | register id peer =>
    cases hs : pool.pending.slots id with
    | none =>
      have hreg := Pending.Ok.register h hs peer
      rw [Pending.register_of_free hs] at hreg
      rw [apply_register_of_free hs]
      refine (congrArg (fun alive => Pending.Ok _ alive none) (Set.ext fun r => ?_)).mp hreg
      exact Or.comm.trans List.mem_cons.symm
    | some slot =>
      rw [apply_register_of_used hs]
      exact h
  | deliver id source payload => exact Pending.Ok.deliver h id source payload
  | drop r =>
    by_cases hr : r ∈ pool.alive
    · rw [apply_drop hr]
      refine (congrArg (fun alive => Pending.Ok _ alive none) (Set.ext fun r' => ?_)).mp
        (Pending.Ok.drop h hr)
      simp
    · have hsame : pool.apply (.drop r) = pool := if_neg hr
      rw [hsame]
      exact h

theorem Ok.run (h : pool.Ok) (ops : List PoolOp) : (pool.run ops).Ok :=
  List.foldlRecOn ops _ h fun _ hb op _ => hb.apply op

/-- In a pool in order, the responses keep their slots as long as none is told
that there will be no reply. -/
theorem Ok.waits_iff (h : pool.Ok) :
    pool.Waits ↔ ∀ r ∈ pool.alive, pool.pending.poll r ≠ some none := by
  constructor
  · intro hw r hr hclosed
    refine (hw r hr ?_).2 hclosed
    rintro ⟨payload, hp⟩
    rw [hp] at hclosed
    cases hclosed
  · intro hw r hr hnot
    rcases Pending.Ok.hasSlot_or h hr with hslot | hdel | hclosed
    · exact ⟨hslot, hw r hr⟩
    · exact absurd hdel hnot
    · exact absurd hclosed (hw r hr)

/-- **The step**: an operation keeps everyone's slot if and only if it spares
them. -/
theorem Ok.waits_apply_iff (h : pool.Ok) (hw : pool.Waits) (op : PoolOp) :
    (pool.apply op).Waits ↔ pool.Spares op := by
  rw [(h.apply op).waits_iff]
  have hold := h.waits_iff.mp hw
  cases op with
  | register id peer =>
    refine iff_of_true (fun r hr => ?_) trivial
    cases hs : pool.pending.slots id with
    | none =>
      rw [apply_register_of_free hs] at hr ⊢
      rcases List.mem_cons.mp hr with rfl | hr
      · simp [Pending.poll, Oneshot.poll, Oneshot.channel]
      · have hpoll := Pending.Ok.poll_register h hr id peer
        rw [Pending.register_of_free hs] at hpoll
        rw [hpoll]
        exact hold r hr
    | some slot =>
      rw [apply_register_of_used hs] at hr ⊢
      exact hold r hr
  | deliver id source payload =>
    refine iff_of_true (fun r hr => ?_) trivial
    show (pool.pending.deliver id source payload).2.poll r ≠ some none
    by_cases hexp : pool.pending.Expects id source
    · obtain ⟨tx, hs⟩ := hexp
      rw [Pending.Ok.poll_deliver h r hs]
      split
      · exact fun he => (nomatch he)
      · exact hold r hr
    · rw [Pending.deliver_of_not_expects hexp]
      exact hold r hr
  | drop r =>
    by_cases hr : r ∈ pool.alive
    · rw [apply_drop hr]
      constructor
      · -- the response whose slot goes away would be another one that is alive
        intro hall _ slot hs
        by_contra hne
        refine hall ⟨r.id, slot.tx⟩ (List.mem_filter.mpr ⟨(Pending.Ok.slot h _ _ hs).1, ?_⟩)
          (Pending.Ok.poll_drop_of_slot h hs)
        exact decide_eq_true fun he => hne (congrArg PendingResponse.rx he)
      · intro hspares r' hr'
        obtain ⟨hmem, hne⟩ := List.mem_filter.mp hr'
        rw [Pending.poll_drop]
        · exact hold r' hmem
        · intro he
          obtain ⟨slot, hs, htx⟩ := Option.map_eq_some_iff.mp he
          refine of_decide_eq_true hne ?_
          exact Pending.Ok.inj h r' hmem r hr (htx.symm.trans (hspares hr slot hs))
    · have hsame : pool.apply (.drop r) = pool := if_neg hr
      rw [hsame]
      exact iff_of_true hold fun hr' => absurd hr' hr

/-- **The waiting requests keep their slots in every state of a run exactly when
every drop finds its own slot or none.** A registration takes a free id only,
and a delivery takes the slot of the response it delivers to, so neither of
them leaves a response waiting without a slot. A drop takes what stands under
its id, and that is the slot of a response that waits unless it is its own. So
one step keeps all slots under the condition and only then
(`Pool.Ok.waits_apply_iff`), and the two sides follow each other along the
run. -/
theorem waiting_keep_slots_iff (ops : List PoolOp) :
    (∀ before, before <+: ops → (init.run before).Waits)
      ↔ ∀ before op, before ++ [op] <+: ops → (init.run before).Spares op := by
  have hstep : ∀ before op, init.run (before ++ [op]) = (init.run before).apply op :=
    fun before op => List.foldl_append
  constructor
  · intro h before op hpre
    refine ((ok_init.run before).waits_apply_iff (h before ?_) op).mp ?_
    · exact (List.prefix_append _ _).trans hpre
    · rw [← hstep]
      exact h _ hpre
  · intro h before
    induction before using List.reverseRecOn with
    | nil => exact fun _ r hr => (nomatch hr)
    | append_singleton before op ih =>
      intro hpre
      rw [hstep]
      exact ((ok_init.run before).waits_apply_iff (ih ((List.prefix_append _ _).trans hpre)) op).mpr
        (h before op hpre)

/-- An id is delivered to, registered again for another peer, and only then is
the first response dropped. -/
def reused : List PoolOp :=
  [.register 7 (.v4 (List.Vector.replicate 4 10) 1),
    .deliver 7 (.v4 (List.Vector.replicate 4 10) 1) [],
    .register 7 (.v4 (List.Vector.replicate 4 10) 2),
    .drop ⟨7, 0⟩]

/-- **The second request has lost its slot without a reply.** -/
theorem drop_vacates_slot_of_another :
    ∃ r ∈ (init.run reused).alive, ¬ (init.run reused).pending.Delivered r
      ∧ ¬ (init.run reused).pending.HasSlot r ∧ (init.run reused).pending.poll r = some none := by
  have hclosed : (init.run reused).pending.poll ⟨7, 1⟩ = some none := by decide +kernel
  have hnone : (init.run reused).pending.slots 7 = none := by decide +kernel
  refine ⟨⟨7, 1⟩, by decide +kernel, ?_, ?_, hclosed⟩
  · rintro ⟨payload, hp⟩
    rw [hclosed] at hp
    cases hp
  · rintro ⟨peer, hp⟩
    rw [hnone] at hp
    cases hp

end Pool

end Kademlia
