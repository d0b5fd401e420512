import Kademlia.VersionChain

/-!
# Storing on behalf of the network

A node holds one value per key. A blob is stored under its hash. A latest
pointer has to be signed by the owner of its domain, come with a complete
history, and continue the pointer it replaces.

A handler decodes its request, asks DNS for the owner if the value is a
pointer, checks what it can without looking at the store, and ends with one
step on the slot of its key. Many handlers run at once, and between any two
steps of one there may be steps of others; what is atomic is the final step
on the slot. The node is therefore a machine over events: a request arrives,
a DNS query is answered – with anything –, a handler takes its final step.
Serving one request after another is a special case (`handle_eq_run`).

What holds of every slot, at any two moments of any run, is that the later
value follows the earlier one (`Follows`): a blob stays, or gives way to the
pointer whose key text it is; a pointer stays, or gives way to a pointer of
the same package with a higher version whose history contains its own as a
proper suffix. The handler checks only that some record of the new history
has the hash the old pointer names. That the rest of the old history is
there too is what hash links add.
-/

namespace Kademlia

/-- A request to store a value. -/
structure StoreRequest where
  /-- The key to store under. -/
  key : Key
  /-- What to store. -/
  value : Value
  /-- The history of a latest pointer. -/
  proof : List (Signed VersionRecord)
deriving DecidableEq

instance : Serialize StoreRequest :=
  ⟨(Serialize.codec.prod (Serialize.codec.prod Serialize.codec.vec)).imap
    (fun p => ⟨p.1, p.2.1, p.2.2⟩) (fun r => (r.key, r.value, r.proof)) (fun _ => rfl)⟩

/-- Encode a request with the history of a latest pointer. -/
def encodeRequestWithProof (key : Key) (value : Value) (proof : List (Signed VersionRecord)) :
    Option (List UInt8) := serialize (⟨key, value, proof⟩ : StoreRequest)

/-- The acknowledgement. -/
def stored : List UInt8 := Codec.textBytes "STORED"

/-- What a node stores. -/
abbrev Values := Key → Option Value

/-- A handler before its final step on the slot of its key. -/
inductive Entry where
  /-- Put a blob in its slot. -/
  | blob (key : Key) (bytes : List UInt8)
  /-- Put a latest pointer in its slot, its history verified. -/
  | latest (key : Key) (pointer : Signed LatestPointer) (chain : List (Signed VersionRecord))

/-- The slot a handler is about to step on. -/
def Entry.key : Entry → Key
  | .blob key _ => key
  | .latest key _ _ => key

/-- A handler that has not ended. -/
inductive Handler where
  /-- Waiting for the key of the pointer's domain. -/
  | asking (key : Key) (pointer : Signed LatestPointer) (proof : List (Signed VersionRecord))
  /-- Before its final step. -/
  | ready (entry : Entry)

section Handle

variable (crypto : Crypto)

/-- Decode a request, up to the first point where the handler waits. -/
def receive (body : List UInt8) : Option Handler :=
  match (deserialize body : Option StoreRequest) with
  | none => none
  | some ⟨key, value, proof⟩ =>
    if key ≠ value.key crypto then none
    else
      match value with
      -- only a pointer comes with a history
      | .blob bytes => if proof ≠ [] then none else some (.ready (.blob key bytes))
      | .latest pointer => some (.asking key pointer proof)

/-- Check a pointer and its history, once DNS has answered. -/
def resume (owner : Option VerifyingKey) (key : Key) (pointer : Signed LatestPointer)
    (proof : List (Signed VersionRecord)) : Option Entry :=
  match owner with
  | none => none
  | some owner =>
    if ¬ latestIsValid crypto pointer owner = true then none
    else
      match validateChainProof crypto pointer owner proof with
      | .error _ => none
      | .ok chain => some (.latest key pointer chain)

/-- Whether a proposed pointer extends the history accepted before: the same
pointer again, or a higher version whose history contains the record the old
one names. -/
def continuesPrevious (old proposed : Signed LatestPointer)
    (chain : List (Signed VersionRecord)) : Bool :=
  if old = proposed then true
  else if proposed.body.version ≤ old.body.version then false
  else chain.any (fun record =>
    recordKey crypto record == some old.body.versionRecordHash
      && record.body.version == old.body.version)

/-- The final step: what the slot holds afterwards, or nothing if the
request is refused. -/
def enter : Entry → Option Value → Option Value
  -- a blob whose bytes are the text of a latest key does not replace a pointer
  | .blob _ _, some (.latest _) => none
  | .blob _ bytes, _ => some (.blob bytes)
  | .latest _ pointer chain, some (.latest old) =>
    if continuesPrevious crypto old pointer chain then some (.latest pointer) else none
  -- but a pointer replaces such a blob
  | .latest _ pointer _, _ => some (.latest pointer)

/-- Take the final step, and answer. -/
def commit (entry : Entry) (values : Values) : Option (List UInt8) × Values :=
  match enter crypto entry (values entry.key) with
  | none => (none, values)
  | some value => (some stored, Function.update values entry.key (some value))

/-- Run a handler up to its final step, DNS answering by `dns`. -/
def reach (dns : String → Option VerifyingKey) (body : List UInt8) : Option Entry :=
  match receive crypto body with
  | none => none
  | some (.ready entry) => some entry
  | some (.asking key pointer proof) =>
    resume crypto (dns pointer.body.domain) key pointer proof

/-- Serve one request to its end. -/
def handle (dns : String → Option VerifyingKey) (values : Values) (body : List UInt8) :
    Option (List UInt8) × Values :=
  match reach crypto dns body with
  | none => (none, values)
  | some entry => commit crypto entry values

/-! ## The node as a machine

Between decoding a request and the final step on a slot a handler of a pointer
waits for DNS, and any number of handlers wait at once. A handler that waits
has looked at nothing but its own request, so what happens meanwhile cannot
invalidate what it has checked; all that depends on the store is in the final
step. DNS may answer anything, and differently each time. -/

/-- What can happen next. -/
inductive Event where
  /-- A request arrives. -/
  | arrive (body : List UInt8)
  /-- A DNS query is answered, for the handler at a position. -/
  | answer (i : ℕ) (owner : Option VerifyingKey)
  /-- The handler at a position takes its final step. -/
  | commit (i : ℕ)

/-- A node: its store, and the handlers that have not ended. -/
structure Node where
  /-- What is stored. -/
  values : Values
  /-- The handlers. -/
  handlers : List Handler

/-- A node that stores nothing. -/
def Node.empty : Node := ⟨fun _ => none, []⟩

/-- The node after an event. An event for a handler that is not there, or
not at that point, changes nothing. -/
def Node.step (node : Node) : Event → Node
  | .arrive body =>
    match receive crypto body with
    | none => node
    | some handler => { node with handlers := node.handlers ++ [handler] }
  | .answer i owner =>
    match node.handlers[i]? with
    | some (.asking key pointer proof) =>
      match resume crypto owner key pointer proof with
      | none => { node with handlers := node.handlers.eraseIdx i }
      | some entry => { node with handlers := node.handlers.set i (.ready entry) }
    | _ => node
  | .commit i =>
    match node.handlers[i]? with
    | some (.ready entry) =>
      ⟨(Kademlia.commit crypto entry node.values).2, node.handlers.eraseIdx i⟩
    | _ => node

/-- The node after a sequence of events. -/
def Node.run (node : Node) (events : List Event) : Node := events.foldl (Node.step crypto) node

end Handle

/-! ## Where what is stored comes from

A node stores only what it was sent. `bodies` are the requests that arrive in a
run, and everything a node or a handler holds is told in terms of them: a value
is under its own key and was the value of a request, and a pointer came with a
history that validates, under whichever key DNS answered. These are also the
byte strings on which hashes must not collide. -/

section Origin

variable {crypto : Crypto} {bodies : Set (List UInt8)}

/-- The byte string the key of a value is the hash of. -/
def Value.preimage : Value → List UInt8
  | .blob bytes => bytes
  | .latest pointer => Codec.textBytes (latestText pointer.body.domain pointer.body.package)

/-- The byte strings whose hashes a request is about: that of its value's
key, and the encodings of its records. -/
def StoreRequest.hashed (request : StoreRequest) : List (List UInt8) :=
  request.value.preimage :: request.proof.filterMap serialize

/-- **The byte strings hashed for requests.** -/
def hashed (bodies : Set (List UInt8)) : Set (List UInt8) :=
  {bs | ∃ body ∈ bodies, ∃ request : StoreRequest,
    deserialize body = some request ∧ bs ∈ request.hashed}

theorem Value.key_eq (value : Value) : value.key crypto = hashBytes crypto value.preimage := by
  cases value <;> rfl

/-- A pointer came with a history that validates to `chain`. -/
def Validated (crypto : Crypto) (bodies : Set (List UInt8)) (pointer : Signed LatestPointer)
    (chain : List (Signed VersionRecord)) : Prop :=
  ∃ body ∈ bodies, ∃ request : StoreRequest, deserialize body = some request
    ∧ request.value = .latest pointer
    ∧ ∃ owner, validateChainProof crypto pointer owner request.proof = .ok chain

/-- **What may be in a slot**: a value that was sent, under its own key, and
if it is a pointer, with a valid history. -/
structure Holds (crypto : Crypto) (bodies : Set (List UInt8)) (key : Key) (value : Value) :
    Prop where
  /-- The value is under its own key. -/
  key_eq : value.key crypto = key
  /-- It was sent. -/
  sent : value.preimage ∈ hashed bodies
  /-- A pointer came with a valid history. -/
  latest : ∀ pointer, value = .latest pointer → ∃ chain, Validated crypto bodies pointer chain

/-- What a handler carries to its final step. -/
def Entry.Sound (crypto : Crypto) (bodies : Set (List UInt8)) : Entry → Prop
  | .blob key bytes => keyForValue crypto bytes = key ∧ bytes ∈ hashed bodies
  | .latest key pointer chain =>
    latestKey crypto pointer.body.domain pointer.body.package = key
      ∧ Validated crypto bodies pointer chain

/-- What a handler carries. -/
def Handler.Sound (crypto : Crypto) (bodies : Set (List UInt8)) : Handler → Prop
  | .asking key pointer proof =>
    latestKey crypto pointer.body.domain pointer.body.package = key
      ∧ ∃ body ∈ bodies, deserialize body = some (⟨key, .latest pointer, proof⟩ : StoreRequest)
  | .ready entry => entry.Sound crypto bodies

/-- A validated history is a valid chain of its pointer, under some key. -/
theorem Validated.valid {pointer : Signed LatestPointer} {chain : List (Signed VersionRecord)}
    (h : Validated crypto bodies pointer chain) :
    ∃ owner, ValidChain crypto pointer owner chain := by
  obtain ⟨_, -, _, -, -, owner, hval⟩ := h
  exact ⟨owner, (validateChainProof_ok hval).1⟩

/-- Its records were sent. -/
theorem Validated.encodings_subset {pointer : Signed LatestPointer}
    {chain : List (Signed VersionRecord)} (h : Validated crypto bodies pointer chain) :
    encodings {r | r ∈ chain} ⊆ hashed bodies := by
  obtain ⟨body, hbody, request, hdec, -, owner, hval⟩ := h
  rintro bs ⟨r, hr, hbs⟩
  refine ⟨body, hbody, request, hdec, List.mem_cons_of_mem _ (List.mem_filterMap.mpr ?_)⟩
  exact ⟨r, (validateChainProof_ok hval).2.1.mem_iff.mpr hr, hbs⟩

/-- The text of its key was hashed. -/
theorem Validated.preimage_mem {pointer : Signed LatestPointer}
    {chain : List (Signed VersionRecord)} (h : Validated crypto bodies pointer chain) :
    (Value.latest pointer).preimage ∈ hashed bodies := by
  obtain ⟨body, hbody, request, hdec, hvalue, -⟩ := h
  exact ⟨body, hbody, request, hdec, hvalue ▸ List.mem_cons_self⟩

/-- Decoding a request. -/
theorem receive_eq_some {body : List UInt8} {handler : Handler}
    (h : receive crypto body = some handler) :
    (∃ key bytes, deserialize body = some (⟨key, .blob bytes, []⟩ : StoreRequest)
        ∧ keyForValue crypto bytes = key ∧ handler = .ready (.blob key bytes))
      ∨ ∃ key pointer proof,
          deserialize body = some (⟨key, .latest pointer, proof⟩ : StoreRequest)
          ∧ latestKey crypto pointer.body.domain pointer.body.package = key
          ∧ handler = .asking key pointer proof := by
  unfold receive at h
  split at h
  · cases h
  · next key value proof hdec =>
    split at h
    · cases h
    · next hkey =>
      rw [not_not] at hkey
      split at h
      · split at h
        · cases h
        · next bytes hproof =>
          rw [not_not] at hproof
          cases h
          exact Or.inl ⟨key, bytes, hproof ▸ hdec, hkey.symm, rfl⟩
      · next pointer =>
        cases h
        exact Or.inr ⟨key, pointer, proof, hdec, hkey.symm, rfl⟩

/-- A handler starts sound. -/
theorem sound_of_receive {body : List UInt8} (hbody : body ∈ bodies) {handler : Handler}
    (h : receive crypto body = some handler) : handler.Sound crypto bodies := by
  rcases receive_eq_some h with
    ⟨key, bytes, hdec, hkey, rfl⟩ | ⟨key, pointer, proof, hdec, hkey, rfl⟩
  · exact ⟨hkey, body, hbody, _, hdec, List.mem_cons_self⟩
  · exact ⟨hkey, body, hbody, hdec⟩

theorem resume_eq_some {owner : Option VerifyingKey} {key : Key}
    {pointer : Signed LatestPointer} {proof : List (Signed VersionRecord)} {entry : Entry}
    (h : resume crypto owner key pointer proof = some entry) :
    ∃ vk chain, owner = some vk ∧ validateChainProof crypto pointer vk proof = .ok chain
      ∧ entry = .latest key pointer chain := by
  unfold resume at h
  split at h
  · cases h
  · next vk =>
    split at h
    · cases h
    · split at h
      · cases h
      · next chain hval =>
        cases h
        exact ⟨vk, chain, rfl, hval, rfl⟩

/-- Whatever DNS answers, the handler stays sound. -/
theorem sound_of_resume {owner : Option VerifyingKey} {key : Key}
    {pointer : Signed LatestPointer} {proof : List (Signed VersionRecord)} {entry : Entry}
    (hs : (Handler.asking key pointer proof).Sound crypto bodies)
    (h : resume crypto owner key pointer proof = some entry) : entry.Sound crypto bodies := by
  obtain ⟨hkey, body, hbody, hdec⟩ := hs
  obtain ⟨vk, chain, -, hval, rfl⟩ := resume_eq_some h
  exact ⟨hkey, body, hbody, _, hdec, rfl, vk, hval⟩

/-- **What brings a handler to its final step.** A blob needs only its own
hash. A pointer needs an answer from DNS, and a history that validates under
the key answered. -/
theorem reach_eq_some {dns : String → Option VerifyingKey} {body : List UInt8} {entry : Entry}
    (h : reach crypto dns body = some entry) :
    (∃ key bytes, deserialize body = some (⟨key, .blob bytes, []⟩ : StoreRequest)
        ∧ keyForValue crypto bytes = key ∧ entry = .blob key bytes)
      ∨ ∃ key pointer proof vk chain,
          deserialize body = some (⟨key, .latest pointer, proof⟩ : StoreRequest)
          ∧ latestKey crypto pointer.body.domain pointer.body.package = key
          ∧ dns pointer.body.domain = some vk
          ∧ validateChainProof crypto pointer vk proof = .ok chain
          ∧ entry = .latest key pointer chain := by
  unfold reach at h
  cases hrec : receive crypto body with
  | none =>
    rw [hrec] at h
    cases h
  | some handler =>
    rw [hrec] at h
    rcases receive_eq_some hrec with ⟨key, bytes, hdec, hkey, rfl⟩ |
      ⟨key, pointer, proof, hdec, hkey, rfl⟩
    · cases h
      exact Or.inl ⟨key, bytes, hdec, hkey, rfl⟩
    · obtain ⟨vk, chain, hvk, hval, rfl⟩ := resume_eq_some h
      exact Or.inr ⟨key, pointer, proof, vk, chain, hdec, hkey, hvk, hval, rfl⟩

/-- **What the final step does to a slot.** A blob never takes the place of a
pointer, and a pointer takes the place of another only where it continues it.
Whatever is entered is the value that was sent. -/
theorem enter_eq_some {entry : Entry} {slot : Option Value} {value : Value}
    (h : enter crypto entry slot = some value) :
    (∃ key bytes, entry = .blob key bytes ∧ value = .blob bytes
        ∧ ∀ old, slot ≠ some (.latest old))
      ∨ ∃ key pointer chain, entry = .latest key pointer chain ∧ value = .latest pointer
        ∧ ∀ old, slot = some (.latest old) → continuesPrevious crypto old pointer chain = true := by
  cases entry with
  | blob key bytes =>
    left
    cases slot with
    | none =>
      cases h
      exact ⟨key, bytes, rfl, rfl, fun _ h => (nomatch h)⟩
    | some v =>
      cases v with
      | blob _ =>
        cases h
        exact ⟨key, bytes, rfl, rfl, fun _ h => (nomatch h)⟩
      | latest _ => cases h
  | latest key pointer chain =>
    right
    cases slot with
    | none =>
      cases h
      exact ⟨key, pointer, chain, rfl, rfl, fun _ h => (nomatch h)⟩
    | some v =>
      cases v with
      | blob _ =>
        cases h
        exact ⟨key, pointer, chain, rfl, rfl, fun _ h => (nomatch h)⟩
      | latest old =>
        obtain ⟨hc, h⟩ := Option.ite_none_right_eq_some.mp h
        cases h
        refine ⟨key, pointer, chain, rfl, rfl, fun _ ho => ?_⟩
        cases ho
        exact hc

/-- The final step leaves in the slot what may be there. -/
theorem holds_of_enter {entry : Entry} (hs : entry.Sound crypto bodies) {slot : Option Value}
    {value : Value} (h : enter crypto entry slot = some value) :
    Holds crypto bodies entry.key value := by
  rcases enter_eq_some h with ⟨key, bytes, rfl, rfl, -⟩ | ⟨key, pointer, chain, rfl, rfl, -⟩
  · exact ⟨hs.1, hs.2, fun _ hp => (nomatch hp)⟩
  · refine ⟨hs.1, hs.2.preimage_mem, fun p hp => ?_⟩
    cases hp
    exact ⟨chain, hs.2⟩

end Origin

/-! ## How a slot evolves

A slot changes by final steps only, and each of these leaves in it something
that follows what was there. That the relation is transitive is where hash
links are needed: the check compares a new history with one record of the
pointer before, and not with the pointers before that. -/

section Evolution

variable {crypto : Crypto} {bodies : Set (List UInt8)}

/-- **A later pointer continues an earlier one**: the same package, and
either the same pointer or a higher version whose history has the earlier
one's as a proper suffix. -/
def Continues (crypto : Crypto) (bodies : Set (List UInt8)) (old new : Signed LatestPointer) :
    Prop :=
  old.body.domain = new.body.domain ∧ old.body.package = new.body.package
    ∧ (old = new ∨ (old.body.version < new.body.version
      ∧ ∀ chain chain', Validated crypto bodies old chain → Validated crypto bodies new chain' →
        chain <:+ chain' ∧ chain ≠ chain'))

/-- **What may follow a value in its slot.** -/
def Follows (crypto : Crypto) (bodies : Set (List UInt8)) : Value → Value → Prop
  | .blob bytes, .blob bytes' => bytes = bytes'
  | .blob bytes, .latest new =>
    bytes = Codec.textBytes (latestText new.body.domain new.body.package)
  | .latest _, .blob _ => False
  | .latest old, .latest new => Continues crypto bodies old new

theorem Follows.refl (value : Value) : Follows crypto bodies value value := by
  cases value with
  | blob _ => exact Eq.refl _
  | latest _ => exact ⟨rfl, rfl, Or.inl rfl⟩

/-- The pair of chains two requests came with do not collide. -/
theorem injOn_recordsOf (hinj : Set.InjOn crypto.sha256 (hashed bodies))
    {p q : Signed LatestPointer} {chain chain' : List (Signed VersionRecord)}
    (h : Validated crypto bodies p chain) (h' : Validated crypto bodies q chain') :
    Set.InjOn crypto.sha256 (encodings (recordsOf chain chain')) := by
  refine hinj.mono ?_
  rintro bs ⟨r, hr | hr, hbs⟩
  · exact h.encodings_subset ⟨r, hr, hbs⟩
  · exact h'.encodings_subset ⟨r, hr, hbs⟩

/-- **A pointer has one history**, whatever requests it came with and whatever
DNS answered. It is linked from the key the pointer names, and the records of
all requests are told apart by their keys. -/
theorem Validated.unique (hinj : Set.InjOn crypto.sha256 (hashed bodies))
    {pointer : Signed LatestPointer} {chain chain' : List (Signed VersionRecord)}
    (h : Validated crypto bodies pointer chain) (h' : Validated crypto bodies pointer chain') :
    chain = chain' := by
  obtain ⟨_, hv⟩ := h.valid
  obtain ⟨_, hv'⟩ := h'.valid
  exact hv.toHistory.unique (injOn_recordsOf hinj h h') hv'.toHistory

/-- What is checked before a pointer replaces another. -/
theorem continuesPrevious_eq_true_iff {old new : Signed LatestPointer}
    {chain : List (Signed VersionRecord)} :
    continuesPrevious crypto old new chain = true
      ↔ old = new ∨ (old.body.version < new.body.version ∧ ∃ record ∈ chain,
        recordKey crypto record = some old.body.versionRecordHash
          ∧ record.body.version = old.body.version) := by
  unfold continuesPrevious
  by_cases heq : old = new
  · simp [heq]
  rw [if_neg heq, or_iff_right heq]
  by_cases hle : new.body.version ≤ old.body.version
  · rw [if_pos hle]
    exact ⟨fun hc => (nomatch hc), fun hc => absurd hc.1 (not_lt.mpr hle)⟩
  · rw [if_neg hle, and_iff_right (not_le.mp hle), List.any_eq_true]
    simp only [Bool.and_eq_true, beq_iff_eq]

/-- **The check on one record pins the whole history.** The record the old
pointer names is the head of the old history. Where a record of that key is in
the new history, so is everything below it; and where the old history is a
suffix of the new one, its head is such a record. -/
theorem continuesPrevious_iff {old new : Signed LatestPointer} {owner owner' : VerifyingKey}
    {chain chain' : List (Signed VersionRecord)}
    (hinj : Set.InjOn crypto.sha256 (encodings (recordsOf chain' chain)))
    (h : ValidChain crypto old owner chain) (h' : ValidChain crypto new owner' chain') :
    continuesPrevious crypto old new chain' = true
      ↔ old = new ∨ (old.body.version < new.body.version ∧ chain <:+ chain') := by
  rw [continuesPrevious_eq_true_iff]
  refine or_congr_right (and_congr_right' ⟨?_, fun hsuf => ?_⟩)
  · rintro ⟨record, hmem, hkey, -⟩
    exact h'.toHistory.suffix_of_mem hinj h.toHistory hmem hkey
  · -- the record the old pointer names is the newest of its history
    obtain ⟨record, hhead, hkey⟩ := h.linked.key_head
    exact ⟨record, hsuf.subset (List.mem_of_mem_head? hhead), hkey, h.head_version record hhead⟩

/-- **The check of a node agrees with the comparison of histories.** A pointer
passes for one that continues the stored one exactly when it is the stored one
or its history extends the stored history; extending one way is rolling back
the other way; and both ways fork exactly when neither history is a suffix of
the other.

The program has two notions of one history continuing another. A node that
serves a store looks for one record in the proposed history; a publisher
compares two whole histories by suffix. They agree on valid histories of one
package, since a record that is found by its key brings all records below it
along, and since a proper extension has a higher version. -/
theorem continuesPrevious_iff_extension (crypto : Crypto) (old new : Signed LatestPointer)
    (owner owner' : VerifyingKey) (chain chain' : List (Signed VersionRecord))
    (hinj : Set.InjOn crypto.sha256 (encodings (recordsOf chain' chain)))
    (hdomain : old.body.domain = new.body.domain) (hpackage : old.body.package = new.body.package)
    (h : ValidChain crypto old owner chain) (h' : ValidChain crypto new owner' chain') :
    (continuesPrevious crypto old new chain' = true
        ↔ old = new ∨ compareChains chain chain' = .ok .extension)
      ∧ (compareChains chain chain' = .ok .extension ↔ compareChains chain' chain = .ok .rollback)
      ∧ ((¬ chain <:+ chain' ∧ ¬ chain' <:+ chain)
        ↔ compareChains chain chain' = .ok .fork ∧ compareChains chain' chain = .ok .fork) := by
  have hold := h.toHistory
  rw [hdomain, hpackage] at hold
  have hnew := h'.toHistory
  refine ⟨?_, ?_, ?_⟩
  · rw [continuesPrevious_iff hinj h h', hold.extension_iff hnew]
    refine or_congr_right ⟨fun ⟨hlt, hsuf⟩ => ⟨hsuf, ?_⟩, fun ⟨hsuf, hne⟩ => ⟨?_, hsuf⟩⟩
    · exact (h.ne_iff_version_lt h' hsuf).mpr hlt
    · exact (h.ne_iff_version_lt h' hsuf).mp hne
  · rw [hold.extension_iff hnew, hnew.rollback_iff hold]
  · rw [hold.fork_iff hnew, hnew.fork_iff hold, and_comm (a := ¬ chain' <:+ chain), and_self]

/-- Version 0.0.2 extends version 0.0.1, and passes for it. -/
theorem continuesPrevious_iff_extension_sample :
    compareChains [Sample.first] [Sample.second, Sample.first] = .ok .extension
      ∧ continuesPrevious Sample.crypto Sample.firstPointer Sample.secondPointer
          [Sample.second, Sample.first] = true := by
  have hfirst : validateChainProof Sample.crypto Sample.firstPointer Sample.owner [Sample.first]
      = .ok [Sample.first] := by decide +kernel
  have hsecond : validateChainProof Sample.crypto Sample.secondPointer Sample.owner
      [Sample.second, Sample.first] = .ok [Sample.second, Sample.first] := by decide +kernel
  obtain ⟨hiff, -⟩ := continuesPrevious_iff_extension Sample.crypto Sample.firstPointer
    Sample.secondPointer Sample.owner Sample.owner [Sample.first] [Sample.second, Sample.first]
    Sample.injOn_recordsOf rfl rfl (validateChainProof_ok hfirst).1
    (validateChainProof_ok hsecond).1
  have hext : compareChains [Sample.first] [Sample.second, Sample.first] = .ok .extension := by
    decide +kernel
  exact ⟨hext, hiff.mpr (Or.inr hext)⟩

theorem suffix_of_continuesPrevious (hinj : Set.InjOn crypto.sha256 (hashed bodies))
    {old new : Signed LatestPointer} {chain chain' : List (Signed VersionRecord)}
    (h : Validated crypto bodies old chain) (h' : Validated crypto bodies new chain')
    (hc : continuesPrevious crypto old new chain' = true) :
    old = new ∨ (old.body.version < new.body.version ∧ chain <:+ chain' ∧ chain ≠ chain') := by
  obtain ⟨_, hv⟩ := h.valid
  obtain ⟨_, hv'⟩ := h'.valid
  refine ((continuesPrevious_iff (injOn_recordsOf hinj h' h) hv hv').mp hc).imp id ?_
  exact fun ⟨hlt, hsuf⟩ => ⟨hlt, hsuf, (hv.ne_iff_version_lt hv' hsuf).mpr hlt⟩

/-- **The final step follows what was in the slot.** A blob in the slot of a
pointer's key has the hash of the key's text, and so is that text. Between
pointers it is the check, which pins the history. -/
theorem follows_of_enter (hinj : Set.InjOn crypto.sha256 (hashed bodies)) {entry : Entry}
    (hs : entry.Sound crypto bodies) {old value : Value} (hold : Holds crypto bodies entry.key old)
    (h : enter crypto entry (some old) = some value) : Follows crypto bodies old value := by
  have hnew := holds_of_enter hs h
  -- one key, so one preimage
  have hpre : old.preimage = value.preimage := hinj hold.sent hnew.sent (by
    show hashBytes crypto _ = hashBytes crypto _
    rw [← Value.key_eq, ← Value.key_eq, hold.key_eq, hnew.key_eq])
  rcases enter_eq_some h with ⟨key, bytes, rfl, rfl, hno⟩ | ⟨key, pointer, chain, rfl, rfl, hcont⟩
  · cases old with
    | blob bytes' => exact hpre
    | latest p => exact absurd rfl (hno p)
  · cases old with
    | blob bytes' => exact hpre
    | latest p =>
      obtain ⟨chain', hval⟩ := hold.latest p rfl
      obtain ⟨_, hv⟩ := hval.valid
      obtain ⟨_, hv'⟩ := hs.2.valid
      obtain ⟨hdom, hpkg⟩ := latestText_inj (not_mem_of_latestIsValid hv.pointer_valid)
        (not_mem_of_latestIsValid hv'.pointer_valid) (Codec.textBytes_injective hpre)
      refine ⟨hdom, hpkg, ?_⟩
      refine (suffix_of_continuesPrevious hinj hval hs.2 (hcont p rfl)).imp id
        (fun ⟨hlt, hsuf⟩ => ⟨hlt, fun c c' hc hc' => ?_⟩)
      rw [hc.unique hinj hval, hc'.unique hinj hs.2]
      exact hsuf

/-- **Following is transitive** among values a slot may hold. The middle value
has a valid history, of which the earlier history is a suffix and which is a
suffix of the later one; without it the two ends would have nothing in
common. -/
theorem Follows.trans {key : Key} {u v w : Value} (hv : Holds crypto bodies key v)
    (huv : Follows crypto bodies u v) (hvw : Follows crypto bodies v w) :
    Follows crypto bodies u w := by
  cases u with
  | blob bytes =>
    cases v with
    | blob bytes' =>
      cases w with
      | blob _ => exact Eq.trans huv hvw
      | latest _ => exact Eq.trans huv hvw
    | latest q =>
      cases w with
      | blob _ => exact absurd hvw id
      | latest r =>
        obtain ⟨hdom, hpkg, -⟩ := hvw
        show bytes = _
        rw [← hdom, ← hpkg]
        exact huv
  | latest p =>
    cases v with
    | blob _ => exact absurd huv id
    | latest q =>
      cases w with
      | blob _ => exact absurd hvw id
      | latest r =>
        obtain ⟨hdom, hpkg, hpq⟩ := huv
        obtain ⟨hdom', hpkg', hqr⟩ := hvw
        refine ⟨hdom.trans hdom', hpkg.trans hpkg', ?_⟩
        rcases hpq with rfl | ⟨hlt, hsuf⟩
        · exact hqr
        · rcases hqr with rfl | ⟨hlt', hsuf'⟩
          · exact Or.inr ⟨hlt, hsuf⟩
          · -- the history between is there, as the slot held its pointer
            obtain ⟨chain, hval⟩ := hv.latest q rfl
            refine Or.inr ⟨hlt.trans hlt', fun c c' hc hc' => ?_⟩
            have hsuffix := (hsuf c chain hc hval).1.trans (hsuf' chain c' hval hc').1
            obtain ⟨_, hvalid⟩ := hc.valid
            obtain ⟨_, hvalid'⟩ := hc'.valid
            exact ⟨hsuffix, (hvalid.ne_iff_version_lt hvalid' hsuffix).mpr (hlt.trans hlt')⟩

end Evolution

/-! ## Runs -/

section Runs

variable {crypto : Crypto} {bodies : Set (List UInt8)}

variable (crypto) in
/-- The final step leaves the store as it is, or sets the slot. -/
theorem commit_cases (entry : Entry) (values : Values) :
    (enter crypto entry (values entry.key) = none ∧ commit crypto entry values = (none, values))
      ∨ ∃ value, enter crypto entry (values entry.key) = some value
        ∧ commit crypto entry values
          = (some stored, Function.update values entry.key (some value)) := by
  unfold commit
  cases enter crypto entry (values entry.key) with
  | none => exact Or.inl ⟨rfl, rfl⟩
  | some value => exact Or.inr ⟨value, rfl, rfl⟩

/-- **What an acknowledged request has done.** -/
theorem handle_acknowledged {dns : String → Option VerifyingKey} {values : Values}
    {body : List UInt8} (h : (handle crypto dns values body).1 = some stored) :
    ∃ entry value, reach crypto dns body = some entry
      ∧ enter crypto entry (values entry.key) = some value
      ∧ (handle crypto dns values body).2 = Function.update values entry.key (some value) := by
  unfold handle at h ⊢
  cases hreach : reach crypto dns body with
  | none =>
    rw [hreach] at h
    cases h
  | some entry =>
    rw [hreach] at h
    dsimp only at h ⊢
    rcases commit_cases crypto entry values with ⟨-, heq⟩ | ⟨value, henter, heq⟩
    · rw [heq] at h
      cases h
    · exact ⟨entry, value, rfl, henter, by rw [heq]⟩

section Pointer

variable {dns : String → Option VerifyingKey} {values : Values} {body : List UInt8}
  {pointer : Signed LatestPointer} {proof chain : List (Signed VersionRecord)}
  {owner : VerifyingKey}

/-- Serving a pointer under its key, once DNS has answered. -/
theorem handle_latest
    (hdec : deserialize body = some (⟨latestKey crypto pointer.body.domain pointer.body.package,
      .latest pointer, proof⟩ : StoreRequest))
    (hdns : dns pointer.body.domain = some owner) :
    handle crypto dns values body
      = match validateChainProof crypto pointer owner proof with
        | .error _ => (none, values)
        | .ok chain => commit crypto (.latest (latestKey crypto pointer.body.domain
            pointer.body.package) pointer chain) values := by
  have hreceive : receive crypto body = some (.asking (latestKey crypto pointer.body.domain
      pointer.body.package) pointer proof) := by
    unfold receive
    rw [hdec]
    exact if_neg (not_not.mpr rfl)
  unfold handle reach
  rw [hreceive]
  dsimp only
  rw [hdns]
  unfold resume
  dsimp only
  cases hval : validateChainProof crypto pointer owner proof with
  | error e => rw [ite_self]
  | ok chain => rw [if_neg (not_not.mpr (validateChainProof_ok hval).1.pointer_valid)]

/-- **What gives way to a pointer**: nothing, a blob, the pointer itself, and an
older pointer whose record is in its history. -/
def GivesWay (crypto : Crypto) (pointer : Signed LatestPointer)
    (chain : List (Signed VersionRecord)) : Option Value → Prop
  | none => True
  | some (.blob _) => True
  | some (.latest old) => old = pointer ∨ (old.body.version < pointer.body.version
    ∧ ∃ record ∈ chain, recordKey crypto record = some old.body.versionRecordHash
      ∧ record.body.version = old.body.version)

/-- **A pointer whose history is accepted is stored where the slot gives way**,
and changes nothing elsewhere. Whether a slot gives way depends on the value in
it and on the pointer, and not on how the value came there. -/
theorem handle_latest_ok (values : Values)
    (hdec : deserialize body = some (⟨latestKey crypto pointer.body.domain pointer.body.package,
      .latest pointer, proof⟩ : StoreRequest))
    (hdns : dns pointer.body.domain = some owner)
    (hval : validateChainProof crypto pointer owner proof = .ok chain) :
    (GivesWay crypto pointer chain
        (values (latestKey crypto pointer.body.domain pointer.body.package))
      ∧ handle crypto dns values body = (some stored, Function.update values
        (latestKey crypto pointer.body.domain pointer.body.package) (some (.latest pointer))))
    ∨ (¬ GivesWay crypto pointer chain
        (values (latestKey crypto pointer.body.domain pointer.body.package))
      ∧ handle crypto dns values body = (none, values)) := by
  rw [handle_latest hdec hdns, hval]
  dsimp only [commit, Entry.key]
  cases values (latestKey crypto pointer.body.domain pointer.body.package) with
  | none => exact Or.inl ⟨trivial, rfl⟩
  | some old =>
    cases old with
    | blob bytes => exact Or.inl ⟨trivial, rfl⟩
    | latest old =>
      dsimp only [GivesWay, enter]
      rw [← continuesPrevious_eq_true_iff]
      by_cases h : continuesPrevious crypto old pointer chain = true
      · exact Or.inl ⟨h, by rw [if_pos h]⟩
      · exact Or.inr ⟨h, by rw [if_neg h]⟩

/-- **When a pointer is acknowledged**: its history is accepted, and the slot
gives way. -/
theorem handle_latest_acknowledged_iff
    (hdec : deserialize body = some (⟨latestKey crypto pointer.body.domain pointer.body.package,
      .latest pointer, proof⟩ : StoreRequest))
    (hdns : dns pointer.body.domain = some owner) :
    (handle crypto dns values body).1 = some stored
      ↔ ∃ chain, validateChainProof crypto pointer owner proof = .ok chain
        ∧ GivesWay crypto pointer chain
          (values (latestKey crypto pointer.body.domain pointer.body.package)) := by
  cases hval : validateChainProof crypto pointer owner proof with
  | error e =>
    rw [handle_latest hdec hdns, hval]
    exact ⟨fun h => (nomatch h), fun ⟨_, h, _⟩ => (nomatch h)⟩
  | ok chain =>
    rcases handle_latest_ok values hdec hdns hval with ⟨hway, heq⟩ | ⟨hstays, heq⟩
    · rw [heq]
      exact iff_of_true rfl ⟨chain, rfl, hway⟩
    · rw [heq]
      refine iff_of_false (fun h => (nomatch h)) ?_
      rintro ⟨_, hchain, hway⟩
      exact hstays (Except.ok.inj hchain ▸ hway)

end Pointer

/-- **What a handler is about to do is what its request asks for**: to put
the value in the slot of the key, which it also does where the value is
there already. -/
theorem exists_request_of_reach {dns : String → Option VerifyingKey} {body : List UInt8}
    {entry : Entry} (h : reach crypto dns body = some entry) :
    ∃ request : StoreRequest, deserialize body = some request ∧ entry.key = request.key
      ∧ (∀ slot value, enter crypto entry slot = some value → value = request.value)
      ∧ enter crypto entry (some request.value) = some request.value := by
  rcases reach_eq_some h with
    ⟨key, bytes, hdec, -, rfl⟩ | ⟨key, pointer, proof, vk, chain, hdec, -, -, -, rfl⟩
  · refine ⟨_, hdec, rfl, fun slot value henter => ?_, rfl⟩
    rcases enter_eq_some henter with ⟨_, _, heq, rfl, -⟩ | ⟨_, _, _, heq, -⟩
    · cases heq
      rfl
    · cases heq
  · refine ⟨_, hdec, rfl, fun slot value henter => ?_, ?_⟩
    · rcases enter_eq_some henter with ⟨_, _, heq, -⟩ | ⟨_, _, _, heq, rfl, -⟩
      · cases heq
      · cases heq
        rfl
    · show (if continuesPrevious crypto pointer pointer chain then _ else _) = _
      simp [continuesPrevious]

/-- **What serving a request does**: nothing, or the slot of its key takes its
value and it is acknowledged, and so it is wherever the slot has that value
already. So an acknowledged request can be repeated, as it is when an
acknowledgement gets lost. -/
theorem handle_cases (crypto : Crypto) (dns : String → Option VerifyingKey) (values : Values)
    (body : List UInt8) :
    handle crypto dns values body = (none, values)
      ∨ ∃ request : StoreRequest, deserialize body = some request
        ∧ handle crypto dns values body
          = (some stored, Function.update values request.key (some request.value))
        ∧ ∀ values' : Values, values' request.key = some request.value →
          handle crypto dns values' body = (some stored, values') := by
  unfold handle
  cases hreach : reach crypto dns body with
  | none => exact Or.inl rfl
  | some entry =>
    obtain ⟨request, hdec, hkey, hvalue, hagain⟩ := exists_request_of_reach hreach
    rcases commit_cases crypto entry values with ⟨-, heq⟩ | ⟨value, henter, heq⟩
    · exact Or.inl heq
    · refine Or.inr ⟨request, hdec, ?_, fun values' hheld => ?_⟩
      · rw [← hkey, ← hvalue _ _ henter]
        exact heq
      · show commit crypto entry values' = _
        unfold commit
        rw [hkey, hheld, hagain]
        dsimp only
        rw [← hheld, Function.update_eq_self]

/-- Every value stored may be where it is. -/
def AllHold (crypto : Crypto) (bodies : Set (List UInt8)) (values : Values) : Prop :=
  ∀ key value, values key = some value → Holds crypto bodies key value

theorem AllHold.commit {values : Values} (h : AllHold crypto bodies values) {entry : Entry}
    (hs : entry.Sound crypto bodies) : AllHold crypto bodies (commit crypto entry values).2 := by
  rcases commit_cases crypto entry values with ⟨-, heq⟩ | ⟨value, henter, heq⟩
  · rw [heq]
    exact h
  · rw [heq]
    intro key v (hv : Function.update values entry.key (some value) key = some v)
    by_cases hk : key = entry.key
    · subst hk
      rw [Function.update_self] at hv
      cases hv
      exact holds_of_enter hs henter
    · rw [Function.update_of_ne hk] at hv
      exact h key v hv

/-- **A final step lets every slot evolve as it may.** -/
theorem AllHold.follows_commit (hinj : Set.InjOn crypto.sha256 (hashed bodies))
    {values : Values} (h : AllHold crypto bodies values) {entry : Entry}
    (hs : entry.Sound crypto bodies) {key : Key} {value : Value} (hv : values key = some value) :
    ∃ later, (Kademlia.commit crypto entry values).2 key = some later
      ∧ Follows crypto bodies value later := by
  rcases commit_cases crypto entry values with ⟨-, heq⟩ | ⟨new, henter, heq⟩
  · exact ⟨value, by rw [heq]; exact hv, Follows.refl value⟩
  · rw [heq]
    by_cases hk : key = entry.key
    · subst hk
      rw [hv] at henter
      exact ⟨new, Function.update_self .., follows_of_enter hinj hs (h _ _ hv) henter⟩
    · exact ⟨value, (Function.update_of_ne hk ..).trans hv, Follows.refl value⟩

/-- **A node in order**: what is stored may be there, and handlers carry what
was sent. -/
structure Node.Ok (crypto : Crypto) (bodies : Set (List UInt8)) (node : Node) : Prop where
  /-- Every value stored may be where it is. -/
  values : AllHold crypto bodies node.values
  /-- Every handler carries what was sent. -/
  handlers : ∀ handler ∈ node.handlers, handler.Sound crypto bodies

theorem Node.ok_empty : Node.empty.Ok crypto bodies :=
  ⟨fun _ _ h => (nomatch h), fun _ h => absurd h List.not_mem_nil⟩

variable (crypto) in
/-- **What an event does to a node**: nothing, or one of four things to a
handler. -/
inductive Node.Steps (node : Node) : Event → Node → Prop
  /-- Nothing changes. -/
  | stay (event : Event) : Steps node event node
  /-- A handler begins. -/
  | begin {body : List UInt8} {handler : Handler} (hrec : receive crypto body = some handler) :
    Steps node (.arrive body) { node with handlers := node.handlers ++ [handler] }
  /-- A handler ends, as its checks fail. -/
  | refuse (i : ℕ) (owner : Option VerifyingKey) :
    Steps node (.answer i owner) { node with handlers := node.handlers.eraseIdx i }
  /-- A handler goes on to its final step, as its checks pass. -/
  | pass {i : ℕ} {owner : Option VerifyingKey} {key : Key} {pointer : Signed LatestPointer}
    {proof : List (Signed VersionRecord)} {entry : Entry}
    (hget : node.handlers[i]? = some (.asking key pointer proof))
    (hres : resume crypto owner key pointer proof = some entry) :
    Steps node (.answer i owner) { node with handlers := node.handlers.set i (.ready entry) }
  /-- A handler takes its final step. -/
  | commit {i : ℕ} {entry : Entry} (hget : node.handlers[i]? = some (.ready entry)) :
    Steps node (.commit i)
      ⟨(Kademlia.commit crypto entry node.values).2, node.handlers.eraseIdx i⟩

variable (crypto) in
theorem Node.steps (node : Node) (event : Event) :
    node.Steps crypto event (node.step crypto event) := by
  cases event with
  | arrive body =>
    unfold Node.step
    dsimp only
    split
    · exact .stay _
    · next hrec => exact .begin hrec
  | answer i owner =>
    unfold Node.step
    dsimp only
    split
    · next hget =>
      split
      · exact .refuse i owner
      · next hres => exact .pass hget hres
    · exact .stay _
  | commit i =>
    unfold Node.step
    dsimp only
    split
    · next hget => exact .commit hget
    · exact .stay _

/-- **Every event keeps a node in order**, and changes the store by a final
step of a sound handler or not at all. -/
theorem Node.Ok.step {node : Node} (h : node.Ok crypto bodies) (event : Event)
    (hbody : ∀ body, event = .arrive body → body ∈ bodies) :
    (node.step crypto event).Ok crypto bodies
      ∧ ((node.step crypto event).values = node.values
        ∨ ∃ entry : Entry, entry.Sound crypto bodies
          ∧ (node.step crypto event).values = (commit crypto entry node.values).2) := by
  have hstep := node.steps crypto event
  generalize node.step crypto event = node' at hstep ⊢
  cases hstep with
  | stay => exact ⟨h, Or.inl rfl⟩
  | @begin body handler hrec =>
    refine ⟨⟨h.values, fun x hx => ?_⟩, Or.inl rfl⟩
    rcases List.mem_append.mp hx with hx | hx
    · exact h.handlers x hx
    · rw [List.mem_singleton.mp hx]
      exact sound_of_receive (hbody body rfl) hrec
  | refuse =>
    exact ⟨⟨h.values, fun x hx => h.handlers x (List.mem_of_mem_eraseIdx hx)⟩, Or.inl rfl⟩
  | pass hget hres =>
    refine ⟨⟨h.values, fun x hx => ?_⟩, Or.inl rfl⟩
    rcases List.mem_or_eq_of_mem_set hx with hx | rfl
    · exact h.handlers x hx
    · exact sound_of_resume (h.handlers _ (List.mem_of_getElem? hget)) hres
  | @commit _ entry hget =>
    have hs : entry.Sound crypto bodies := h.handlers _ (List.mem_of_getElem? hget)
    exact ⟨⟨h.values.commit hs, fun x hx => h.handlers x (List.mem_of_mem_eraseIdx hx)⟩,
      Or.inr ⟨entry, hs, rfl⟩⟩

/-- The requests that arrive in a run. -/
def arrivals (events : List Event) : List (List UInt8) :=
  events.filterMap (fun event => match event with
    | .arrive body => some body
    | _ => none)

theorem mem_arrivals {events : List Event} {body : List UInt8}
    (h : Event.arrive body ∈ events) : body ∈ arrivals events :=
  List.mem_filterMap.mpr ⟨_, h, rfl⟩

theorem arrivals_subset_cons (event : Event) (events : List Event) :
    arrivals events ⊆ arrivals (event :: events) := by
  intro body hb
  obtain ⟨e, he, hbe⟩ := List.mem_filterMap.mp hb
  exact List.mem_filterMap.mpr ⟨e, List.mem_cons_of_mem _ he, hbe⟩

/-- **A run keeps a node in order.** -/
theorem Node.Ok.run_ok {node : Node} (h : node.Ok crypto bodies) (events : List Event)
    (hbodies : ∀ body ∈ arrivals events, body ∈ bodies) :
    (node.run crypto events).Ok crypto bodies := by
  induction events generalizing node with
  | nil => exact h
  | cons event events ih =>
    obtain ⟨hok, -⟩ := h.step event (fun body he =>
      hbodies body (mem_arrivals (he ▸ List.mem_cons_self)))
    exact ih hok (fun body hb => hbodies body (arrivals_subset_cons event events hb))

/-- **It lets every slot evolve as it may**, where keys tell what was sent
apart. By induction on the events: an event leaves the store as it is or takes
one final step, and following is transitive. -/
theorem Node.Ok.run (hinj : Set.InjOn crypto.sha256 (hashed bodies)) {node : Node}
    (h : node.Ok crypto bodies) (events : List Event)
    (hbodies : ∀ body ∈ arrivals events, body ∈ bodies) :
    (node.run crypto events).Ok crypto bodies
      ∧ ∀ key value, node.values key = some value →
        ∃ later, (node.run crypto events).values key = some later
          ∧ Follows crypto bodies value later := by
  refine ⟨h.run_ok events hbodies, ?_⟩
  induction events generalizing node with
  | nil => exact fun _ value hv => ⟨value, hv, Follows.refl value⟩
  | cons event events ih =>
    obtain ⟨hok, hstep⟩ := h.step event (fun body he =>
      hbodies body (mem_arrivals (he ▸ List.mem_cons_self)))
    have hlater := ih hok (fun body hb => hbodies body (arrivals_subset_cons event events hb))
    intro key value hv
    -- one event, then the rest of the run
    obtain ⟨next, hnext, hfollow⟩ : ∃ next, (node.step crypto event).values key = some next
        ∧ Follows crypto bodies value next := by
      rcases hstep with heq | ⟨entry, hs, heq⟩
      · exact ⟨value, heq ▸ hv, Follows.refl value⟩
      · rw [heq]
        exact h.values.follows_commit hinj hs hv
    obtain ⟨later, hl, hfollow'⟩ := hlater key next hnext
    exact ⟨later, hl, hfollow.trans (hok.values _ _ hnext) hfollow'⟩

/-- **The history of a pointer is a suffix of the history of what follows
it.** -/
theorem suffix_of_follows (hinj : Set.InjOn crypto.sha256 (hashed bodies))
    {p q : Signed LatestPointer} {chain chain' : List (Signed VersionRecord)}
    (h : Validated crypto bodies p chain) (h' : Validated crypto bodies q chain')
    (hfollows : Follows crypto bodies (.latest p) (.latest q)) : chain <:+ chain' := by
  obtain ⟨-, -, rfl | ⟨-, hsuf⟩⟩ := hfollows
  · rw [h.unique hinj h']
  · exact (hsuf chain chain' h h').1

/-- So it is for any two pointers that follow each other in a slot. -/
theorem Holds.exists_suffix (hinj : Set.InjOn crypto.sha256 (hashed bodies)) {key : Key}
    {value later : Value} (h : Holds crypto bodies key value) (h' : Holds crypto bodies key later)
    (hfollows : Follows crypto bodies value later) (p q : Signed LatestPointer)
    (hp : value = .latest p) (hq : later = .latest q) :
    ∃ chain chain', Validated crypto bodies p chain ∧ Validated crypto bodies q chain'
      ∧ chain <:+ chain' := by
  obtain ⟨chain, hchain⟩ := h.latest p hp
  obtain ⟨chain', hchain'⟩ := h'.latest q hq
  subst hp hq
  exact ⟨chain, chain', hchain, hchain', suffix_of_follows hinj hchain hchain' hfollows⟩

/-- **Package history on a node is append-only.** Take any requests, handled in
any interleaving with any DNS answers, and any two moments of the run. What a
slot held at the earlier is under its own key, the slot is not vacant at the
later, and what it then holds follows; where both are pointers, the history of
the earlier is a suffix of the history of the later.

DNS is not trusted to answer the same twice, so the two pointers may have been
accepted under different owners. Their histories are still one line, because
what ties them together is not the owner but the hashes that the records name:
they must not collide on the byte strings that the arriving requests are about,
and nothing else is assumed of the cryptography. -/
theorem slot_append_only (crypto : Crypto) (events : List Event)
    (hinj : Set.InjOn crypto.sha256 (hashed {body | body ∈ arrivals events}))
    {i j : ℕ} (hij : i ≤ j) (key : Key) {value : Value}
    (hvalue : (Node.empty.run crypto (events.take i)).values key = some value) :
    value.key crypto = key
      ∧ ∃ later, (Node.empty.run crypto (events.take j)).values key = some later
        ∧ Follows crypto {body | body ∈ arrivals events} value later
        ∧ ∀ p q, value = .latest p → later = .latest q →
          ∃ chain chain', Validated crypto {body | body ∈ arrivals events} p chain
            ∧ Validated crypto {body | body ∈ arrivals events} q chain'
            ∧ chain <:+ chain' := by
  have hsub : ∀ {l : List Event}, l ⊆ events → ∀ body ∈ arrivals l,
      body ∈ {body | body ∈ arrivals events} := by
    intro l hl body hb
    obtain ⟨e, he, hbe⟩ := List.mem_filterMap.mp hb
    exact List.mem_filterMap.mpr ⟨e, hl he, hbe⟩
  have hsplit : events.take j = events.take i ++ (events.drop i).take (j - i) := by
    rw [← List.take_add, Nat.add_sub_cancel' hij]
  obtain ⟨hok, -⟩ := Node.ok_empty.run hinj (events.take i) (hsub (List.take_subset i events))
  obtain ⟨hok', hlater⟩ := hok.run hinj ((events.drop i).take (j - i))
    (hsub (fun e he => List.drop_subset i events (List.take_subset _ _ he)))
  obtain ⟨later, hl, hfollow⟩ := hlater key value hvalue
  have hrun : (Node.empty.run crypto (events.take i)).run crypto
      ((events.drop i).take (j - i)) = Node.empty.run crypto (events.take j) := by
    unfold Node.run
    rw [hsplit, List.foldl_append]
  rw [hrun] at hl hok'
  exact ⟨(hok.values _ _ hvalue).key_eq, later, hl, hfollow,
    (hok.values _ _ hvalue).exists_suffix hinj (hok'.values _ _ hl) hfollow⟩

/-- The request to store a value of the sample history. -/
def Sample.body (value : Value) (proof : List (Signed VersionRecord)) : List UInt8 :=
  (encodeRequestWithProof (value.key Sample.crypto) value proof).getD []

/-- A squatter stores the text of the latest key; then the two versions are
published, their handlers waiting for DNS at the same time. -/
def Sample.events : List Event :=
  [.arrive (body (.blob (Codec.textBytes "a:p:latest")) []), .commit 0,
    .arrive (body (.latest firstPointer) [first]),
    .arrive (body (.latest secondPointer) [first, second]),
    .answer 1 (some owner), .answer 0 (some owner), .commit 0, .commit 0]

/-- The digests of the sample do not collide on what requests are about. -/
theorem Sample.injOn_hashed {bodies : List (List UInt8)}
    (h : ∀ body ∈ bodies, ∀ request ∈ (deserialize body : Option StoreRequest),
      ∀ bs ∈ request.hashed, bs ∈ digests.map Prod.fst) :
    Set.InjOn Sample.crypto.sha256 (hashed {body | body ∈ bodies}) :=
  injOn_sha256.mono (fun bs ⟨body, hbody, request, hdec, hbs⟩ =>
    h body hbody request hdec bs hbs)

/-- The first pointer, and what the second leaves of it. -/
theorem slot_append_only_sample :
    Set.InjOn Sample.crypto.sha256 (hashed {body | body ∈ arrivals Sample.events})
      ∧ (Node.empty.run Sample.crypto (Sample.events.take 7)).values
          (latestKey Sample.crypto "a" "p") = some (.latest Sample.firstPointer)
      ∧ ∃ later, (Node.empty.run Sample.crypto (Sample.events.take 8)).values
          (latestKey Sample.crypto "a" "p") = some later
        ∧ Follows Sample.crypto {body | body ∈ arrivals Sample.events}
          (.latest Sample.firstPointer) later := by
  have hinj : Set.InjOn Sample.crypto.sha256
      (hashed {body | body ∈ arrivals Sample.events}) :=
    Sample.injOn_hashed (by decide +kernel)
  have hvalue : (Node.empty.run Sample.crypto (Sample.events.take 7)).values
      (latestKey Sample.crypto "a" "p") = some (.latest Sample.firstPointer) := by
    decide +kernel
  obtain ⟨-, later, hl, hfollow, -⟩ := slot_append_only Sample.crypto Sample.events hinj
    (show 7 ≤ 8 by decide) (latestKey Sample.crypto "a" "p") hvalue
  exact ⟨hinj, hvalue, later, hl, hfollow⟩

/-! ## One request after another -/

/-- What DNS answers about a request. -/
def dnsAnswer (dns : String → Option VerifyingKey) (body : List UInt8) : Option VerifyingKey :=
  match (deserialize body : Option StoreRequest) with
  | some ⟨_, .latest pointer, _⟩ => dns pointer.body.domain
  | _ => none

/-- **Serving a request to its end is a run**: it arrives, DNS answers, and it
takes its final step. So what is proved of all runs is proved of handlers that
are not interrupted. -/
theorem handle_eq_run (dns : String → Option VerifyingKey) (values : Values)
    (body : List UInt8) :
    (handle crypto dns values body).2
      = ((⟨values, []⟩ : Node).run crypto
          [.arrive body, .answer 0 (dnsAnswer dns body), .commit 0]).values := by
  unfold handle reach Node.run
  simp only [List.foldl_cons, List.foldl_nil, Node.step]
  cases hrec : receive crypto body with
  | none => rfl
  | some handler =>
    rcases receive_eq_some hrec with ⟨key, bytes, -, -, rfl⟩ | ⟨key, pointer, proof, hdec, -, rfl⟩
    · rfl
    · have hdns : dnsAnswer dns body = dns pointer.body.domain := by
        unfold dnsAnswer
        rw [hdec]
      simp only [List.nil_append, List.getElem?_cons_zero, hdns]
      cases resume crypto (dns pointer.body.domain) key pointer proof <;> rfl

/-- **Serving a request keeps what is stored in order, and lets every slot
evolve as it may.** -/
theorem AllHold.handle (hinj : Set.InjOn crypto.sha256 (hashed bodies)) {values : Values}
    (h : AllHold crypto bodies values) (dns : String → Option VerifyingKey) {body : List UInt8}
    (hbody : body ∈ bodies) :
    AllHold crypto bodies (Kademlia.handle crypto dns values body).2
      ∧ ∀ key value, values key = some value →
        ∃ later, (Kademlia.handle crypto dns values body).2 key = some later
          ∧ Follows crypto bodies value later := by
  have hok : (⟨values, []⟩ : Node).Ok crypto bodies :=
    ⟨h, fun _ hmem => absurd hmem List.not_mem_nil⟩
  obtain ⟨hrun, hlater⟩ := hok.run hinj [.arrive body, .answer 0 (dnsAnswer dns body), .commit 0]
    (fun b hb => List.mem_singleton.mp hb ▸ hbody)
  rw [handle_eq_run]
  exact ⟨hrun.values, hlater⟩

end Runs

end Kademlia
