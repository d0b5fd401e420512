import Kademlia.HandleRpc
import Kademlia.ValueReplies

/-!
# What a node accepts, a reader accepts

A node checks what it stores, and a reader checks what it is given, in code that
is written apart. Here the two are put against each other: where DNS has one key
for a domain, whatever a node answers a value query for a package's latest key
with is a pointer the reader of that package takes, unless it is contacts or the
blob whose bytes are the text of the key.

Two kinds of value share one space of keys. A blob is under its own hash, a
pointer under the hash of a text made of its domain and package with colons
between, and anyone may store that text as a blob. What keeps them apart is that
a text without a colon in its domain has one reading (`latestText_inj`), and that
the node refuses every other domain. The rest is one invariant of the node over
whatever arrives, in any interleaving (`Node.Authentic`): a pointer that is
stored, or about to be, was signed by the key DNS has for its domain.
-/

namespace Kademlia

open HandleRpc

section Signed

variable (crypto : Crypto) (dns : String → Option VerifyingKey)

/-- A latest pointer signed by the owner of its domain, as DNS has it. -/
def OwnerSigned (pointer : Signed LatestPointer) : Prop :=
  ∃ owner, dns pointer.body.domain = some owner ∧ latestIsValid crypto pointer owner = true

/-- Whether an event is no DNS answer with a key other than the domain's. -/
def answersBy (node : Node) : Event → Bool
  | .answer i (some owner) =>
    match node.handlers[i]? with
    | some (.asking _ pointer _) => dns pointer.body.domain == some owner
    | _ => true
  | _ => true

/-- **DNS has one key per domain** throughout a run: a query for it is answered
with this key, or fails. -/
def dnsFixed (node : Node) : List Event → Bool
  | [] => true
  | event :: events => answersBy dns node event && dnsFixed (node.step crypto event) events

/-- What a node stores, or is about to store, the owners signed. -/
structure Node.Authentic (node : Node) : Prop where
  /-- The pointers stored. -/
  values : ∀ key pointer, node.values key = some (.latest pointer) →
    OwnerSigned crypto dns pointer
  /-- The pointers of handlers before their final step. -/
  handlers : ∀ key pointer chain, .ready (.latest key pointer chain) ∈ node.handlers →
    OwnerSigned crypto dns pointer

variable {crypto dns}

theorem Node.authentic_empty : Node.empty.Authentic crypto dns :=
  ⟨fun _ _ h => (nomatch h), fun _ _ _ h => absurd h List.not_mem_nil⟩

/-- A pointer that passes the checks under the key of its domain is signed by
its owner. -/
theorem ownerSigned_of_resume {owner : Option VerifyingKey} {key key' : Key}
    {pointer pointer' : Signed LatestPointer} {proof chain : List (Signed VersionRecord)}
    (howner : ∀ vk, owner = some vk → dns pointer.body.domain = some vk)
    (h : resume crypto owner key pointer proof = some (.latest key' pointer' chain)) :
    OwnerSigned crypto dns pointer' := by
  obtain ⟨vk, chain', hvk, hval, heq⟩ := resume_eq_some h
  cases heq
  exact ⟨vk, howner vk hvk, (validateChainProof_ok hval).1.pointer_valid⟩

/-- A final step stores a pointer its owner signed, if any. -/
theorem ownerSigned_commit {entry : Entry} {values : Values}
    (hentry : ∀ key pointer chain, entry = .latest key pointer chain →
      OwnerSigned crypto dns pointer)
    (hvalues : ∀ key pointer, values key = some (.latest pointer) → OwnerSigned crypto dns pointer)
    {key : Key} {pointer : Signed LatestPointer}
    (h : (commit crypto entry values).2 key = some (.latest pointer)) :
    OwnerSigned crypto dns pointer := by
  rcases commit_cases crypto entry values with ⟨-, heq⟩ | ⟨value, henter, heq⟩
  · rw [heq] at h
    exact hvalues key pointer h
  · rw [heq] at h
    dsimp only at h
    by_cases hk : key = entry.key
    · rw [hk, Function.update_self] at h
      cases h
      rcases enter_eq_some henter with ⟨_, _, -, hblob, -⟩ | ⟨key', pointer', chain, hentry', hv, -⟩
      · cases hblob
      · cases hv
        exact hentry key' pointer chain hentry'
    · rw [Function.update_of_ne hk] at h
      exact hvalues key pointer h

/-- **Every event keeps a node authentic.** A pointer gets past the answer of DNS
only if it verifies under the key answered, which is the domain's; the final
step stores what got past it, or leaves the slot as it was. -/
theorem Node.Authentic.step {node : Node} (h : node.Authentic crypto dns) {event : Event}
    (hdns : answersBy dns node event = true) : (node.step crypto event).Authentic crypto dns := by
  have hstep := node.steps crypto event
  generalize node.step crypto event = node' at hstep ⊢
  cases hstep with
  | stay => exact h
  | begin hrec =>
    refine ⟨h.values, fun key pointer chain hmem => ?_⟩
    rcases List.mem_append.mp hmem with hmem | hmem
    · exact h.handlers key pointer chain hmem
    · -- a request for a pointer waits for DNS first
      rcases receive_eq_some hrec with ⟨_, _, -, -, rfl⟩ | ⟨_, _, _, -, -, rfl⟩ <;>
        cases List.mem_singleton.mp hmem
  | refuse =>
    exact ⟨h.values, fun _ _ _ hmem => h.handlers _ _ _ (List.mem_of_mem_eraseIdx hmem)⟩
  | pass hget hres =>
    refine ⟨h.values, fun key pointer chain hmem => ?_⟩
    rcases List.mem_or_eq_of_mem_set hmem with hmem | heq
    · exact h.handlers key pointer chain hmem
    · cases heq
      refine ownerSigned_of_resume (fun vk hvk => ?_) hres
      subst hvk
      unfold answersBy at hdns
      dsimp only at hdns
      rw [hget] at hdns
      exact beq_iff_eq.mp hdns
  | commit hget =>
    refine ⟨fun key pointer => ownerSigned_commit (fun _ _ _ he => ?_) h.values,
      fun _ _ _ hmem => h.handlers _ _ _ (List.mem_of_mem_eraseIdx hmem)⟩
    exact h.handlers _ _ _ (he ▸ List.mem_of_getElem? hget)

/-- **So does a run.** -/
theorem Node.Authentic.run {node : Node} (h : node.Authentic crypto dns) {events : List Event}
    (hdns : dnsFixed crypto dns node events = true) :
    (node.run crypto events).Authentic crypto dns := by
  induction events generalizing node with
  | nil => exact h
  | cons event events ih =>
    obtain ⟨hevent, hrest⟩ := Bool.and_eq_true_iff.mp hdns
    exact ih (h.step hevent) hrest

end Signed

/-! ## What is answered

A value query reads one slot. What may be in the slot of a hash is known by
now: what hashes to it, or a pointer whose text does, and the owner signed
that. -/

section Answered

variable {crypto : Crypto} {dns : String → Option VerifyingKey} {events : List Event}

/-- What the handlers of a node see. -/
def Node.context {A : Type} (node : Node) (myId : NodeId) (table : A)
    (dns : String → Option VerifyingKey) : Context A := ⟨myId, table, node.values, dns⟩

/-- What a node may answer a query for the hash of `bytes` with: contacts, the
bytes, or a pointer whose key is made from them, signed by its owner. -/
inductive Answered (crypto : Crypto) (dns : String → Option VerifyingKey) (bytes : List UInt8)
    (closest : List Contact) : FindValue → Prop
  /-- Nothing is stored under the key. -/
  | closest : Answered crypto dns bytes closest (.closest closest)
  /-- The bytes are. -/
  | blob : Answered crypto dns bytes closest (.value (.blob bytes))
  /-- A pointer is, of the domain and package the bytes spell. -/
  | latest (pointer : Signed LatestPointer) (signed : OwnerSigned crypto dns pointer)
      (colon : ':' ∉ pointer.body.domain.toList)
      (spells : bytes = Codec.textBytes (latestText pointer.body.domain pointer.body.package)) :
      Answered crypto dns bytes closest (.value (.latest pointer))

/-- **What a node answers, whatever was sent to it.** Whatever is in a slot
hashes to its key, as a blob or as the text of its pointer; as hashes do not
collide on what was sent, it is of the bytes asked for. -/
theorem answered_reply {A : Type} [CloseNodes A]
    (hdns : dnsFixed crypto dns Node.empty events = true)
    {bytes : List UInt8}
    (hinj : Set.InjOn crypto.sha256 (insert bytes (hashed {body | body ∈ arrivals events})))
    (myId : NodeId) (table : A) :
    Answered crypto dns bytes (CloseNodes.closeNodes table (hashBytes crypto bytes))
      (FindValue.reply ((Node.empty.run crypto events).context myId table dns)
        (hashBytes crypto bytes)) := by
  obtain ⟨hok, -⟩ := Node.ok_empty.run (hinj.mono (Set.subset_insert _ _)) events (fun _ h => h)
  have hauth := Node.authentic_empty.run hdns
  unfold FindValue.reply Node.context
  dsimp only
  cases hvalue : (Node.empty.run crypto events).values (hashBytes crypto bytes) with
  | none => exact .closest
  | some value =>
    have hholds := hok.values _ _ hvalue
    -- one key, so one preimage
    have hpre : value.preimage = bytes := hinj (Set.mem_insert_of_mem _ hholds.sent)
      (Set.mem_insert _ _) ((Value.key_eq value).symm.trans hholds.key_eq)
    cases value with
    | blob bytes' =>
      cases hpre
      exact .blob
    | latest pointer =>
      obtain ⟨owner, howner, hvalid⟩ := hauth.values _ _ hvalue
      exact .latest pointer ⟨owner, howner, hvalid⟩ (not_mem_of_latestIsValid hvalid) hpre.symm

/-- **What a node accepts, a reader accepts.** Let a node serve any requests,
in any interleaving, where DNS has one key per domain. Under the latest key of
a package it answers with contacts, with the text of the key as a blob, or with
a pointer of this package that passes the test of its readers, signed by the
key of its domain; and under the hash of any bytes with contacts, with the
bytes, or with a pointer of the domain and package the bytes spell.

The domain asked for has no colon in it, and neither has that of a pointer that
was accepted. So the two texts, being equal, have the same reading, and the
pointer is of the package that was asked for. The blob cannot be excluded, as
anyone may store it; a reader passes over it. -/
theorem readers_accept {A : Type} [CloseNodes A] (crypto : Crypto)
    (dns : String → Option VerifyingKey) (events : List Event)
    (hdns : dnsFixed crypto dns Node.empty events = true) (myId : NodeId) (table : A)
    (domain package : String) (hcolon : ':' ∉ domain.toList) (bytes : List UInt8)
    (hinj : Set.InjOn crypto.sha256 (insert bytes
      (insert (Codec.textBytes (latestText domain package))
        (hashed {body | body ∈ arrivals events})))) :
    (FindValue.reply ((Node.empty.run crypto events).context myId table dns)
          (latestKey crypto domain package)
        = .closest (CloseNodes.closeNodes table (latestKey crypto domain package))
      ∨ FindValue.reply ((Node.empty.run crypto events).context myId table dns)
          (latestKey crypto domain package)
        = .value (.blob (Codec.textBytes (latestText domain package)))
      ∨ ∃ pointer owner, FindValue.reply ((Node.empty.run crypto events).context myId table dns)
            (latestKey crypto domain package) = .value (.latest pointer)
          ∧ dns domain = some owner ∧ pointer.body.domain = domain
          ∧ pointer.body.package = package
          ∧ isLatestFor crypto owner domain package (.latest pointer) = true
          ∧ pointer.verify crypto owner = true)
    ∧ (FindValue.reply ((Node.empty.run crypto events).context myId table dns)
          (hashBytes crypto bytes)
        = .closest (CloseNodes.closeNodes table (hashBytes crypto bytes))
      ∨ FindValue.reply ((Node.empty.run crypto events).context myId table dns)
          (hashBytes crypto bytes) = .value (.blob bytes)
      ∨ ∃ pointer, FindValue.reply ((Node.empty.run crypto events).context myId table dns)
            (hashBytes crypto bytes) = .value (.latest pointer)
          ∧ ':' ∉ pointer.body.domain.toList
          ∧ bytes = Codec.textBytes (latestText pointer.body.domain pointer.body.package)) := by
  constructor
  · have hanswer := answered_reply hdns (hinj.mono (Set.subset_insert _ _)) myId table
    rw [show hashBytes crypto (Codec.textBytes (latestText domain package))
      = latestKey crypto domain package from rfl] at hanswer
    generalize FindValue.reply ((Node.empty.run crypto events).context myId table dns)
      (latestKey crypto domain package) = reply at hanswer ⊢
    cases hanswer with
    | closest => exact Or.inl rfl
    | blob => exact Or.inr (Or.inl rfl)
    | latest pointer hauth hcolon' hspells =>
      obtain ⟨hdom, hpkg⟩ := latestText_inj hcolon hcolon' (Codec.textBytes_injective hspells)
      obtain ⟨owner, howner, hvalid⟩ := hauth
      refine Or.inr (Or.inr ⟨pointer, owner, rfl, hdom ▸ howner, hdom.symm, hpkg.symm, ?_, ?_⟩)
      · exact isLatestFor_eq_true_iff.mpr ⟨pointer, rfl, hdom.symm, hpkg.symm, hvalid⟩
      · exact (Bool.and_eq_true_iff.mp hvalid).2
  · have hanswer := answered_reply hdns
      (hinj.mono (Set.insert_subset_insert (Set.subset_insert _ _))) myId table
    generalize FindValue.reply ((Node.empty.run crypto events).context myId table dns)
      (hashBytes crypto bytes) = reply at hanswer ⊢
    cases hanswer with
    | closest => exact Or.inl rfl
    | blob => exact Or.inr (Or.inl rfl)
    | latest pointer _ hcolon' hspells => exact Or.inr (Or.inr ⟨pointer, rfl, hcolon', hspells⟩)

/-- The node of the sample, whose owner DNS has for every domain. -/
def Sample.published : Context Table :=
  (Node.empty.run Sample.crypto Sample.events).context (Table.contact 0 0).id
    (Table.run (Table.contact 0 0).id []) (fun _ => some Sample.owner)

/-- The squatter's blob has given way to the owner's second release. -/
theorem readers_accept_sample :
    FindValue.reply Sample.published (latestKey Sample.crypto "a" "p")
        = .value (.latest Sample.secondPointer)
      ∧ isLatestFor Sample.crypto Sample.owner "a" "p" (.latest Sample.secondPointer) = true := by
  have hreply : FindValue.reply Sample.published (latestKey Sample.crypto "a" "p")
      = .value (.latest Sample.secondPointer) := by
    decide +kernel
  have hinj : Set.InjOn Sample.crypto.sha256 (insert (Codec.textBytes "x")
      (insert (Codec.textBytes (latestText "a" "p"))
        (hashed {body | body ∈ arrivals Sample.events}))) := by
    have hsent : ∀ body ∈ arrivals Sample.events,
        ∀ request ∈ (deserialize body : Option StoreRequest), ∀ bs ∈ request.hashed,
        bs ∈ Sample.digests.map Prod.fst := by decide +kernel
    refine Sample.injOn_sha256.mono ?_
    rintro bs (rfl | rfl | ⟨body, hbody, request, hdec, hbs⟩)
    · exact (by decide +kernel : Codec.textBytes "x" ∈ Sample.digests.map Prod.fst)
    · exact (by decide +kernel :
        Codec.textBytes (latestText "a" "p") ∈ Sample.digests.map Prod.fst)
    · exact hsent body hbody request hdec bs hbs
  obtain ⟨haccept, -⟩ := readers_accept Sample.crypto (fun _ => some Sample.owner) Sample.events
    (by decide +kernel) (Table.contact 0 0).id (Table.run (Table.contact 0 0).id []) "a" "p"
    (by decide) (Codec.textBytes "x") hinj
  rcases haccept with h | h | ⟨pointer, owner, h, howner, -, -, hlatest, -⟩
  · cases hreply.symm.trans h
  · cases hreply.symm.trans h
  · cases hreply.symm.trans h
    cases howner
    exact ⟨hreply, hlatest⟩

end Answered

end Kademlia
