import Kademlia.ClusterLookup

/-!
# Storing and finding in a network

Everything stored or asked for goes through a lookup, so two clients agree on
where a value is without having heard of each other: on the nodes nearest to
its key (`Near`). What a client stores is acknowledged by all of these, and is
found from everywhere ever after (`stored_is_found`), whatever else is stored
meanwhile.

This takes what lookups take: tables at rest, calls that complete, and a
network balanced around the keys in question. Where it is not balanced, a blob
may be stored on `K` nodes and not be found right after (`stored_is_lost`). Of
the blob it takes that it is not the text a pointer is stored under (`Plain`).

The operations of a client are taken one after another. Each leaves the client
and the network as it needs to find them (`Ready`), and what it returns follows
from the replies, which were given by nodes of which a stable property of what
they store held.
-/

namespace Kademlia

open HandleRpc

/-- Bytes that are not the text a pointer is stored under. -/
def Plain (bytes : List UInt8) : Prop :=
  ∀ domain package, bytes ≠ Codec.textBytes (latestText domain package)

/-- Text without a colon is not. -/
theorem plain_textBytes {text : String} (h : ':' ∉ text.toList) : Plain (Codec.textBytes text) := by
  intro domain package heq
  rw [Codec.textBytes_injective heq] at h
  refine h ?_
  unfold latestText
  simp [String.toList_append]

/-- Nor are bytes that are not text at all. -/
theorem plain_of_textOfBytes {bytes : List UInt8} (h : Codec.textOfBytes bytes = none) :
    Plain bytes := by
  rintro domain package rfl
  rw [Codec.textOfBytes_textBytes] at h
  cases h

/-- Only the blob itself follows it. -/
theorem Plain.eq_of_follows {crypto : Crypto} {bodies : Set (List UInt8)} {bytes : List UInt8}
    (h : Plain bytes) {later : Value} (hfollows : Follows crypto bodies (.blob bytes) later) :
    later = .blob bytes := by
  cases later with
  | blob bytes' => exact congrArg Value.blob (Eq.symm hfollows)
  | latest pointer => exact absurd hfollows (h _ _)

namespace Cluster

variable {A : Type} [CloseNodes A] {cluster : Cluster}

variable (cluster) in
/-- **Where a value belongs**: the `K` nodes nearest to its key. -/
def Near (key : Key) : Set Contact :=
  {c | ∃ r, Nearest.Selects (fun c => distance c.id key) K cluster.nodes r ∧ c ∈ r}

theorem mem_near_iff {key : Key} {r : List Contact}
    (h : Nearest.Selects (fun c => distance c.id key) K cluster.nodes r) {c : Contact} :
    c ∈ cluster.Near key ↔ c ∈ r := by
  refine ⟨fun ⟨r', h', hc⟩ => ?_, fun hc => ⟨r, h, hc⟩⟩
  rwa [h.unique h']

variable (cluster) in
/-- How many nodes a value belongs on. -/
noncomputable def copies : ℕ := (min (K : ℕ∞) cluster.nodes.encard).toNat

theorem copies_eq {key : Key} {r : List Contact}
    (h : Nearest.Selects (fun c => distance c.id key) K cluster.nodes r) :
    cluster.copies = r.length := by
  unfold copies
  rw [← h.length_eq, ENat.toNat_natCast]

/-- Where there is a node, a value belongs on one. -/
theorem copies_ne_zero {c : Contact} (hc : c ∈ cluster.nodes) : cluster.copies ≠ 0 := by
  have hpos : 0 < min (K : ℕ∞) cluster.nodes.encard :=
    lt_min (by decide) (Set.encard_pos.mpr ⟨c, hc⟩)
  have hfew : min (K : ℕ∞) cluster.nodes.encard ≠ ⊤ :=
    ne_top_of_le_ne_top (ENat.natCast_ne_top K) (min_le_left _ _)
  exact (ENat.toNat_pos hpos.ne' hfew).ne'

/-! ## A client at work

What a client relies on is put in one structure, so that each operation is one
statement: it is ready before, it is ready after, and the result is such. What
is known of what nodes store is a parameter, as it grows with what has been
stored. -/

variable (cluster) in
/-- **A client, and the network it finds**: whatever it sends of what is allowed,
and whatever else happens, what nodes store goes on to have the property `M`. -/
structure Ready (keys : Set Key) (allowed : Set (List UInt8)) (N M : Contact → Values → Prop)
    (rpc : Rpc A (Net A)) (world : World A (Net A)) : Prop where
  /-- The client is one of the network. -/
  honest : cluster.Honest rpc
  /-- Lookups for the keys in use lead to the nearest nodes. -/
  balanced : ∀ key ∈ keys, Balanced (Contact.id '' cluster.nodes) key
  /-- What is allowed is known. -/
  allowed_subset : allowed ⊆ cluster.bodies
  /-- The property is stable. -/
  stable : cluster.Stable allowed M
  /-- It includes what is said of replies. -/
  le : ∀ c values, M c values → N c values
  /-- The network has the property. -/
  net : cluster.Upholds allowed N M world.net
  /-- The client's table is at rest. -/
  table : Steady cluster.nodes rpc.myContact.id world.table

section Operations

variable {keys : Set Key} {allowed : Set (List UInt8)} {N M : Contact → Values → Prop}
  {rpc : Rpc A (Net A)} {world world' : World A (Net A)}

theorem Ready.kept (h : cluster.Ready keys allowed N M rpc world) (method : Method)
    (body : List UInt8) (hbody : method = .store → body ∈ allowed) :
    KeptAsking cluster rpc method body (cluster.Upholds allowed N M) :=
  fun _ hasked => kept_upholds h.honest.mem h.allowed_subset h.stable h.le
    (addressed_request rpc hasked hbody)

/-- The client goes on with the same table. -/
theorem Ready.moved (h : cluster.Ready keys allowed N M rpc world)
    (htable : world'.table = world.table) (hnet : cluster.Upholds allowed N M world'.net) :
    cluster.Ready keys allowed N M rpc world' :=
  { h with net := hnet, table := htable ▸ h.table }

/-- **More is known of what nodes store.** -/
theorem Ready.strengthen (h : cluster.Ready keys allowed N M rpc world)
    {M' : Contact → Values → Prop} (hstable : cluster.Stable allowed M')
    (hle : ∀ c values, M' c values → M c values)
    (hvalues : ∀ c ∈ cluster.nodes, ∀ context, world.net.nodes c.address = some context →
      M c context.values → M' c context.values) : cluster.Ready keys allowed N M' rpc world where
  honest := h.honest
  balanced := h.balanced
  allowed_subset := h.allowed_subset
  stable := hstable
  le c values hM := h.le c values (hle c values hM)
  net := ⟨h.net.healthy, h.net.sent,
    fun c hc context hnode => hvalues c hc context hnode (h.net.values c hc context hnode),
    h.net.given⟩
  table := h.table

/-- **More is allowed, and less is asked of replies.** -/
theorem Ready.relax (h : cluster.Ready keys allowed N M rpc world) {allowed' : Set (List UInt8)}
    {N' M' : Contact → Values → Prop} (hallowed : allowed ⊆ allowed')
    (hsubset : allowed' ⊆ cluster.bodies) (hstable : cluster.Stable allowed' M')
    (hN : ∀ c values, N c values → N' c values) (hM : ∀ c values, M c values → M' c values)
    (hle : ∀ c values, M' c values → N' c values) :
    cluster.Ready keys allowed' N' M' rpc world where
  honest := h.honest
  balanced := h.balanced
  allowed_subset := hsubset
  stable := hstable
  le := hle
  net := ⟨h.net.healthy, fun body hb => hallowed (h.net.sent body hb),
    fun c hc context hnode => hM c _ (h.net.values c hc context hnode),
    fun p hp => (h.net.given p hp).mono hN⟩
  table := h.table

/-- DNS answers. -/
theorem Ready.getDnsVk (h : cluster.Ready keys allowed N M rpc world) (domain : String) :
    (rpc.getDnsVk domain world).1 = cluster.dns domain
      ∧ cluster.Ready keys allowed N M rpc (rpc.getDnsVk domain world).2 := by
  obtain ⟨hanswer, hsteps, hoffered⟩ := h.honest.dns world domain h.net.healthy
  have hkept : cluster.Kept rpc.myContact [] (cluster.Upholds (A := A) allowed N M) :=
    kept_upholds h.honest.mem h.allowed_subset h.stable h.le fun _ hr => absurd hr List.not_mem_nil
  exact ⟨hanswer, h.moved (hoffered.eq h.table) (hkept.steps h.net hsteps)⟩

/-- **A lookup finds the nodes nearest to the key.** -/
theorem Ready.targets (h : cluster.Ready keys allowed N M rpc world) {key : Key}
    (hkey : key ∈ keys) :
    Nearest.Selects (fun c => distance c.id key) K cluster.nodes (rpc.targets key world).1
      ∧ cluster.Ready keys allowed N M rpc (rpc.targets key world).2 := by
  have hkept := h.kept .findNode ((serialize key).getD []) fun hm => by cases hm
  obtain ⟨-, htable, hnet⟩ := h.honest.runLookup hkept h.net h.table
  exact ⟨h.honest.selects_targets hkept (h.balanced key hkey) h.net h.table, h.moved htable hnet⟩

/-! ## Finding

A value lookup asks the targets of the key and takes what they have to say.
Each reply was given by a sound node of which the property held; which node is
asked first, and whether the rest is asked at all, is up to the network. -/

/-- **What a value lookup is replied**: what sound nodes have to say about the key. -/
theorem Ready.lookupValuesLoop (h : cluster.Ready keys allowed N M rpc world) (key : Key)
    (accept : Value → Bool) (stopAtFirst : Bool) (rounds : ℕ) (candidates inFlight : List Contact)
    (hnodes : ∀ c ∈ inFlight ++ candidates, c ∈ cluster.nodes) :
    (∀ p ∈ rpc.valueRepliesLoop key accept stopAtFirst rounds candidates inFlight world,
      ∃ context : Context A, cluster.Sound p.1 context ∧ N p.1 context.values
        ∧ p.2 = FindValue.reply context key)
      ∧ ∀ found, cluster.Ready keys allowed N M rpc
        (rpc.lookupValuesLoop key accept stopAtFirst rounds candidates inFlight found world).2 := by
  induction rounds generalizing candidates inFlight world with
  | zero => exact ⟨fun p hp => absurd hp List.not_mem_nil, fun _ => h⟩
  | succ rounds ih =>
    rw [Rpc.valueRepliesLoop]
    simp only [Rpc.lookupValuesLoop]
    have hasked : ∀ c ∈ inFlight ++ candidates.take (alpha - inFlight.length),
        c ∈ cluster.nodes := fun c hc => hnodes c ((List.mem_append.mp hc).elim
      (List.mem_append_left _) fun hc => List.mem_append_right _ (List.mem_of_mem_take hc))
    by_cases hne : inFlight ++ candidates.take (alpha - inFlight.length) = []
    · rw [Rpc.next_eq_none_iff.mpr hne]
      exact ⟨fun p hp => absurd hp List.not_mem_nil, fun _ => h⟩
    have hkept := h.kept .findValue ((serialize key).getD []) fun hm => by cases hm
    obtain ⟨source, reply, rest, world', net₁, hnext, htable', hnet', hnet₁, -, hmem⟩ :=
      h.honest.next hne hasked (fun hm => by cases hm) (hkept _ hasked) h.net h.table
    have hperm := Rpc.next_perm hnext
    have hsource := hasked source (hperm.subset List.mem_cons_self)
    obtain ⟨context, hsound, hN, rfl⟩ := hnet₁.healthy.of_given hsource (hnet₁.given _ hmem)
    rw [hnext]
    dsimp only
    rw [hsound.answerIn_route key]
    -- whoever is left to ask is a node still
    have hrest : ∀ c ∈ rest ++ candidates.drop (alpha - inFlight.length), c ∈ cluster.nodes := by
      intro c hc
      rcases List.mem_append.mp hc with hc | hc
      · exact hasked c (hperm.subset (List.mem_cons_of_mem _ hc))
      · exact hnodes c (List.mem_append_right _ (List.mem_of_mem_drop hc))
    have hworld' := h.moved htable' hnet'
    have htold : ∀ l : List (Contact × FindValue), (∀ p ∈ l, ∃ context : Context A,
          cluster.Sound p.1 context ∧ N p.1 context.values ∧ p.2 = FindValue.reply context key) →
        ∀ p ∈ (source, FindValue.reply context key) :: l, ∃ context : Context A,
          cluster.Sound p.1 context ∧ N p.1 context.values
            ∧ p.2 = FindValue.reply context key := by
      intro l hl p hp
      rcases List.mem_cons.mp hp with rfl | hp
      · exact ⟨context, hsound, hN, rfl⟩
      · exact hl p hp
    cases hreply : FindValue.reply context key with
    | value value =>
      obtain ⟨hreplies, hready⟩ := ih hworld' _ _ hrest
      dsimp only
      rw [← hreply]
      refine ⟨htold _ ?_, fun found => ?_⟩
      · split
        · exact fun p hp => absurd hp List.not_mem_nil
        · exact hreplies
      · split
        · split
          · exact hworld'
          · exact hready _
        · exact hready _
    | closest contacts =>
      -- the contacts of a node are known already
      have hoffer : Rpc.offer contacts world' = world' := by
        have hcontacts : contacts = CloseNodes.closeNodes context.closeNodes key := by
          unfold FindValue.reply at hreply
          split at hreply
          · cases hreply
          · exact (FindValue.closest.inj hreply).symm
        have hoffered : cluster.Offered world'.table
            (contacts.foldl CloseNodes.maybeAddContact world'.table) :=
          ⟨contacts, fun c hc => (hsound.table.subset key c (hcontacts ▸ hc)).1, rfl⟩
        unfold Rpc.offer
        rw [hoffered.eq hworld'.table]
      obtain ⟨hreplies, hready⟩ := ih hworld' _ _ hrest
      dsimp only
      rw [hoffer, ← hreply]
      exact ⟨htold _ hreplies, hready⟩

/-- **A value lookup is described by what sound nodes have to say.** -/
theorem Ready.lookupValues (h : cluster.Ready keys allowed N M rpc world) {key : Key}
    (hkey : key ∈ keys) (accept : Value → Bool) (stopAtFirst : Bool) :
    cluster.Ready keys allowed N M rpc (rpc.lookupValues key accept stopAtFirst world).2
      ∧ ∃ replies, rpc.Hears key accept stopAtFirst world replies
        ∧ ∀ c ∈ cluster.nodes, ∃ context : Context A, cluster.Sound c context
          ∧ N c context.values ∧ replies c = FindValue.reply context key := by
  obtain ⟨hsel, htargets⟩ := h.targets hkey
  obtain ⟨hreplies, hready⟩ := htargets.lookupValuesLoop key accept stopAtFirst
    ((rpc.targets key world).1.length + 1) (rpc.targets key world).1 []
    fun c hc => hsel.subset c hc
  refine ⟨hready [], ?_⟩
  obtain ⟨replies, hhears⟩ := exists_hears rpc key accept stopAtFirst world
  -- who was not asked would have said what it has to say now
  classical
  have hnow : ∀ c : Contact, ∃ reply, c ∈ cluster.nodes → ∃ context : Context A,
      cluster.Sound c context ∧ N c context.values ∧ reply = FindValue.reply context key := by
    intro c
    by_cases hc : c ∈ cluster.nodes
    · obtain ⟨context, hnode, hsound⟩ := h.net.healthy.node c hc
      exact ⟨_, fun _ => ⟨context, hsound, h.le c _ (h.net.values c hc context hnode), rfl⟩⟩
    · exact ⟨.closest [], fun hc' => absurd hc' hc⟩
  choose now hnow using hnow
  refine ⟨fun c => if ∃ p ∈ rpc.valueReplies key accept stopAtFirst world, p.1 = c
    then replies c else now c, fun p hp => ?_, fun c hc => ?_⟩
  · dsimp only
    rw [if_pos ⟨p, hp, rfl⟩]
    exact hhears p hp
  · dsimp only
    split
    · next hasked =>
      obtain ⟨p, hp, rfl⟩ := hasked
      rw [← hhears p hp]
      exact hreplies p hp
    · exact hnow c hc

/-- Where a value is, it is the reply. -/
theorem reply_of_values {context : Context A} {key : Key} {value : Value}
    (h : context.values key = some value) : FindValue.reply context key = .value value := by
  unfold FindValue.reply
  rw [h]

/-- There is somebody near every key. -/
theorem Ready.exists_near (h : cluster.Ready keys allowed N M rpc world) {key : Key}
    (hkey : key ∈ keys) : ∃ c ∈ (rpc.targets key world).1, c ∈ cluster.Near key := by
  obtain ⟨hsel, -⟩ := h.targets hkey
  obtain ⟨c, hc⟩ : ∃ c, c ∈ (rpc.targets key world).1 := by
    rcases hsel.least rpc.myContact h.honest.mem with hme | ⟨hfull, -⟩
    · exact ⟨_, hme⟩
    · exact List.exists_mem_of_length_pos (hfull ▸ by decide)
  exact ⟨c, hc, (mem_near_iff hsel).mpr hc⟩

/-- **A blob that is held near its key is found.** -/
theorem Ready.lookupValue (h : cluster.Ready keys allowed N M rpc world) {bytes : List UInt8}
    (hkey : keyForValue cluster.crypto bytes ∈ keys)
    (hheld : ∀ c values, N c values → c ∈ cluster.Near (keyForValue cluster.crypto bytes) →
      values (keyForValue cluster.crypto bytes) = some (.blob bytes)) :
    cluster.Ready keys allowed N M rpc
        (rpc.lookupValue cluster.crypto (keyForValue cluster.crypto bytes) world).2
      ∧ ∃ source, (rpc.lookupValue cluster.crypto (keyForValue cluster.crypto bytes) world).1
        = some (source, bytes) := by
  obtain ⟨hready, replies, hhears, hreplies⟩ := h.lookupValues hkey
    (isBlobFor cluster.crypto (keyForValue cluster.crypto bytes)) true
  refine ⟨hready, ?_⟩
  obtain ⟨hsel, -⟩ := h.targets hkey
  have hsay : ∀ c ∈ (rpc.targets (keyForValue cluster.crypto bytes) world).1,
      replies c = .value (.blob bytes) := by
    intro c hc
    obtain ⟨context, -, hN, hreply⟩ := hreplies c (hsel.subset c hc)
    rw [hreply, reply_of_values (hheld c _ hN ((mem_near_iff hsel).mpr hc))]
  obtain ⟨c, hc, -⟩ := h.exists_near hkey
  obtain ⟨⟨source, found⟩, hfound⟩ :=
    Option.isSome_iff_exists.mp (isSome_lookupValue hhears hc (hsay c hc) rfl)
  obtain ⟨-, hsource, hreply⟩ := of_lookupValue_eq_some hhears hfound
  rw [hsay source hsource] at hreply
  cases hreply
  exact ⟨source, hfound⟩

/-! ## Storing

A value is sent to one target after another. Once a node has acknowledged it,
that it is held there is part of what is known, and stays so while the others
are sent it. -/

/-- **What becomes of a request to store**: a sound node handled it, and if it
acknowledged, it holds the value or what followed it. -/
theorem Ready.storeWithProof (h : cluster.Ready keys allowed N M rpc world) {peer : Contact}
    (hpeer : peer ∈ cluster.nodes) {key : Key} {value : Value} {proof : List (Signed VersionRecord)}
    {body : List UInt8} (hencode : encodeRequestWithProof key value proof = some body)
    (hbody : body ∈ allowed) :
    cluster.Ready keys allowed N M rpc (rpc.storeWithProof peer key value proof world).2
      ∧ (∃ context : Context A, cluster.Sound peer context ∧ N peer context.values
        ∧ (rpc.storeWithProof peer key value proof world).1
          = ((handle cluster.crypto cluster.dns context.values body).1 == some stored))
      ∧ ((rpc.storeWithProof peer key value proof world).1 = true → ∃ context later,
        (rpc.storeWithProof peer key value proof world).2.net.nodes peer.address = some context
          ∧ context.values key = some later
          ∧ Follows cluster.crypto cluster.bodies value later) := by
  have hasked : ∀ c ∈ [peer], c ∈ cluster.nodes := fun c hc => List.mem_singleton.mp hc ▸ hpeer
  obtain ⟨contact, reply, rest, world', net₁, hnext, htable', hnet', hnet₁, hnodes, hmem⟩ :=
    h.honest.next (List.cons_ne_nil peer []) hasked (fun _ => h.allowed_subset hbody)
      (h.kept .store body (fun _ => hbody) _ hasked) h.net h.table
  obtain rfl : contact = peer :=
    List.mem_singleton.mp ((Rpc.next_perm hnext).subset List.mem_cons_self)
  have heq : rpc.storeWithProof contact key value proof world = (reply == some stored, world') := by
    unfold Rpc.storeWithProof
    rw [hencode]
    dsimp only
    rw [hnext]
  rw [heq]
  obtain ⟨context, hsound, hN, hreply⟩ := hnet₁.healthy.of_given hpeer (hnet₁.given _ hmem)
  refine ⟨h.moved htable' hnet', ⟨context, hsound, hN, ?_⟩, fun hack => ?_⟩
  · rw [hreply, ← hsound.dns]
    rfl
  · obtain ⟨context', later, hnode, hvalue, hfollows⟩ := hnet₁.healthy.keeps _ hmem _ body
      ⟨key, value, proof⟩ rfl (deserialize_serialize hencode) (beq_iff_eq.mp hack)
    exact ⟨context', later, (congrFun hnodes _).symm.trans hnode, hvalue, hfollows⟩

/-- Certain nodes hold a value under a key. -/
def Held (key : Key) (value : Value) (S : Set Contact) (c : Contact) (values : Values) : Prop :=
  c ∈ S → values key = some value

section Store

variable {key : Key} {value : Value} {proof : List (Signed VersionRecord)} {body : List UInt8}

/-- **A value that nodes acknowledge is stored on all of them.** By induction
on the targets, with the set of those that hold it as the accumulator. What a
node holds after its acknowledgement is the value or what followed it, and here
nothing does. -/
theorem Ready.storeOn (hencode : encodeRequestWithProof key value proof = some body)
    (hbody : body ∈ allowed) {targets : List Contact} (htargets : ∀ c ∈ targets, c ∈ cluster.nodes)
    (hack : ∀ c ∈ targets, ∀ context : Context A, cluster.Sound c context → N c context.values →
      (handle cluster.crypto cluster.dns context.values body).1 = some stored)
    (hfollow : ∀ c ∈ targets, ∀ values later, M c values → values key = some later →
      Follows cluster.crypto cluster.bodies value later → later = value)
    (hstable : ∀ S, cluster.Stable allowed (fun c values => M c values ∧ Held key value S c values))
    {S : Set Contact} (accepted : ℕ)
    (h : cluster.Ready keys allowed N (fun c values => M c values ∧ Held key value S c values) rpc
      world) :
    (rpc.storeOn key value proof targets accepted world).1 = accepted + targets.length
      ∧ cluster.Ready keys allowed N
        (fun c values => M c values ∧ Held key value (S ∪ {c | c ∈ targets}) c values) rpc
        (rpc.storeOn key value proof targets accepted world).2 := by
  induction targets generalizing S accepted world with
  | nil =>
    refine ⟨rfl, ?_⟩
    have hset : S ∪ {c | c ∈ ([] : List Contact)} = S := by simp
    rw [hset]
    exact h
  | cons target targets ih =>
    rw [List.forall_mem_cons] at htargets hack hfollow
    obtain ⟨hready, ⟨context, hsound, hN, hreply⟩, hstored⟩ :=
      h.storeWithProof htargets.1 hencode hbody
    rw [hack.1 context hsound hN, beq_self_eq_true] at hreply
    obtain ⟨context', later, hnode, hvalue, hfollows⟩ := hstored hreply
    -- from now on this node holds it too
    have hnext := hready.strengthen (hstable (S ∪ {target})) (fun c values hM => ⟨hM.1, fun hc =>
        hM.2 (Or.inl hc)⟩) fun c hc context₁ hnode₁ hM => ⟨hM.1, fun hmem => by
      rcases hmem with hmem | rfl
      · exact hM.2 hmem
      · cases hnode.symm.trans hnode₁
        rw [hvalue, hfollow.1 _ later hM.1 hvalue hfollows]⟩
    obtain ⟨hcount, hend⟩ := ih htargets.2 hack.2 hfollow.2 (accepted + 1) hnext
    unfold Rpc.storeOn
    dsimp only
    rw [hreply, if_pos rfl, hcount, List.length_cons]
    refine ⟨by omega, ?_⟩
    have hset : S ∪ {target} ∪ {c | c ∈ targets} = S ∪ {c | c ∈ target :: targets} := by
      rw [Set.union_assoc]
      exact congrArg (S ∪ ·) (Set.ext fun c => List.mem_cons.symm)
    rw [← hset]
    exact hend

/-- A value that nodes refuse is stored on none of them. -/
theorem Ready.storeOn_refused (h : cluster.Ready keys allowed N M rpc world)
    (hencode : encodeRequestWithProof key value proof = some body) (hbody : body ∈ allowed)
    {targets : List Contact} (htargets : ∀ c ∈ targets, c ∈ cluster.nodes)
    (hrefuse : ∀ values, (handle cluster.crypto cluster.dns values body).1 ≠ some stored)
    (accepted : ℕ) :
    (rpc.storeOn key value proof targets accepted world).1 = accepted
      ∧ cluster.Ready keys allowed N M rpc
        (rpc.storeOn key value proof targets accepted world).2 := by
  induction targets generalizing world with
  | nil => exact ⟨rfl, h⟩
  | cons target targets ih =>
    rw [List.forall_mem_cons] at htargets
    obtain ⟨hready, ⟨context, -, -, hreply⟩, -⟩ := h.storeWithProof htargets.1 hencode hbody
    rw [beq_eq_false_iff_ne.mpr (hrefuse context.values)] at hreply
    unfold Rpc.storeOn
    dsimp only
    rw [hreply, if_neg Bool.false_ne_true]
    exact ih hready htargets.2

variable (cluster) in
/-- A value is held near its key. -/
def HeldNear (value : Value) : Contact → Values → Prop :=
  Held (value.key cluster.crypto) value (cluster.Near (value.key cluster.crypto))

/-- **A value that the nodes near its key acknowledge is held by them.** -/
theorem Ready.storeValue (h : cluster.Ready keys allowed N M rpc world)
    (hkey : value.key cluster.crypto ∈ keys)
    (hencode : encodeRequestWithProof (value.key cluster.crypto) value proof = some body)
    (hbody : body ∈ allowed)
    (hack : ∀ c ∈ cluster.Near (value.key cluster.crypto), ∀ context : Context A,
      cluster.Sound c context → N c context.values →
        (handle cluster.crypto cluster.dns context.values body).1 = some stored)
    (hfollow : ∀ c ∈ cluster.Near (value.key cluster.crypto), ∀ values later, M c values →
      values (value.key cluster.crypto) = some later →
        Follows cluster.crypto cluster.bodies value later → later = value)
    (hstable : ∀ S, cluster.Stable allowed
      (fun c values => M c values ∧ Held (value.key cluster.crypto) value S c values)) :
    (rpc.storeValueWithProof cluster.crypto value proof world).1
        = (value.key cluster.crypto, cluster.copies)
      ∧ cluster.Ready keys allowed N
        (fun c values => M c values ∧ cluster.HeldNear value c values) rpc
        (rpc.storeValueWithProof cluster.crypto value proof world).2 := by
  obtain ⟨hsel, htargets⟩ := h.targets hkey
  have hnear : {c | c ∈ (rpc.targets (value.key cluster.crypto) world).1}
      = cluster.Near (value.key cluster.crypto) := Set.ext fun c => (mem_near_iff hsel).symm
  obtain ⟨hcount, hend⟩ := Ready.storeOn hencode hbody hsel.subset
    (fun c hc => hack c ((mem_near_iff hsel).mpr hc))
    (fun c hc => hfollow c ((mem_near_iff hsel).mpr hc)) hstable 0
    (htargets.strengthen (hstable ∅) (fun _ _ hM => hM.1)
      fun _ _ _ _ hM => ⟨hM, fun hc => absurd hc (Set.notMem_empty _)⟩)
  rw [Set.empty_union, hnear] at hend
  refine ⟨Prod.ext rfl ?_, hend⟩
  rw [copies_eq hsel]
  exact hcount.trans (Nat.zero_add _)

/-- A value that nodes refuse is acknowledged by none. -/
theorem Ready.storeValue_refused (h : cluster.Ready keys allowed N M rpc world)
    (hkey : value.key cluster.crypto ∈ keys)
    (hencode : encodeRequestWithProof (value.key cluster.crypto) value proof = some body)
    (hbody : body ∈ allowed)
    (hrefuse : ∀ values, (handle cluster.crypto cluster.dns values body).1 ≠ some stored) :
    (rpc.storeValueWithProof cluster.crypto value proof world).1 = (value.key cluster.crypto, 0)
      ∧ cluster.Ready keys allowed N M rpc
        (rpc.storeValueWithProof cluster.crypto value proof world).2 := by
  obtain ⟨hsel, htargets⟩ := h.targets hkey
  obtain ⟨hcount, hend⟩ := htargets.storeOn_refused hencode hbody hsel.subset hrefuse 0
  exact ⟨Prod.ext rfl hcount, hend⟩

/-! ## Blobs

The slot of a blob can be taken by a pointer, if the blob is the text of the
pointer's key. For any other blob, whoever holds it holds it for good. -/

section Blob

variable {bytes : List UInt8}

/-- **A blob is acknowledged wherever it is sent**: the slot of its key cannot
hold a pointer. The text of that pointer would have the same hash as the bytes,
and so be the bytes. -/
theorem acknowledges_blob (hplain : Plain bytes)
    (hencode : encodeRequestWithProof (keyForValue cluster.crypto bytes) (.blob bytes) []
      = some body) (hbody : body ∈ cluster.bodies) {values : Values}
    (hstored : Stored cluster.crypto cluster.bodies values) :
    (handle cluster.crypto cluster.dns values body).1 = some stored := by
  have hdec := deserialize_serialize hencode
  have hreach : reach cluster.crypto cluster.dns body
      = some (.blob (keyForValue cluster.crypto bytes) bytes) := by
    unfold reach receive
    rw [hdec]
    simp [Value.key]
  have hsent : bytes ∈ hashed cluster.bodies := ⟨body, hbody, _, hdec, List.mem_cons_self⟩
  have henter : enter cluster.crypto (.blob (keyForValue cluster.crypto bytes) bytes)
      (values (keyForValue cluster.crypto bytes)) = some (.blob bytes) := by
    cases hslot : values (keyForValue cluster.crypto bytes) with
    | none => rfl
    | some value =>
      cases value with
      | blob _ => rfl
      | latest pointer =>
        have hholds := hstored.holds _ _ hslot
        exact absurd (cluster.injOn_sha256 hsent hholds.sent hholds.key_eq.symm) (hplain _ _)
  unfold handle commit
  rw [hreach]
  dsimp only [Entry.key]
  rw [henter]

/-- **A blob stays where it is.** -/
theorem stable_blob (hallowed : allowed ⊆ cluster.bodies) (hplain : Plain bytes) (key : Key)
    (S : Set Contact) : cluster.Stable allowed (Held key (.blob bytes) S) := by
  intro c _ values hstored hheld body hbody hc
  have hbody' : body ∈ cluster.bodies :=
    hbody.elim (fun h => hallowed h) fun h => cluster.foreign_subset h
  obtain ⟨later, hlater, hfollows⟩ :=
    (hstored.handle cluster.injOn_sha256 cluster.dns hbody').2 key _ (hheld hc)
  rw [hlater, hplain.eq_of_follows hfollows]

/-- **A blob that is stored is held by the nodes nearest to its key**, all of which
acknowledge it. -/
theorem Ready.storeBlob (h : cluster.Ready keys allowed N M rpc world)
    (hkey : keyForValue cluster.crypto bytes ∈ keys) (hplain : Plain bytes)
    (hencode : encodeRequestWithProof (keyForValue cluster.crypto bytes) (.blob bytes) []
      = some body) (hbody : body ∈ allowed) :
    (rpc.storeValueWithProof cluster.crypto (.blob bytes) [] world).1
        = (keyForValue cluster.crypto bytes, cluster.copies)
      ∧ cluster.Ready keys allowed N
        (fun c values => M c values ∧ cluster.HeldNear (.blob bytes) c values) rpc
        (rpc.storeValueWithProof cluster.crypto (.blob bytes) [] world).2 :=
  h.storeValue hkey hencode hbody
    (fun _ _ _ hsound _ =>
      acknowledges_blob hplain hencode (h.allowed_subset hbody) hsound.values)
    (fun _ _ _ _ _ _ hfollows => hplain.eq_of_follows hfollows)
    fun S => h.stable.and (stable_blob h.allowed_subset hplain _ S)

end Blob

end Store

end Operations

end Cluster

namespace Sample

/-- A network in which one blob is stored. -/
def keeping (members : List Contact) (hids : (members.map Contact.id).Nodup) : Cluster :=
  network members hids [body (.blob (Codec.textBytes "x")) []] (injOn_hashed (by decide +kernel))

/-- The network of the twenty. -/
def balanced : Cluster := keeping halves nodup_halves

/-- The lopsided one. -/
def unbalanced : Cluster := keeping lopsided nodup_lopsided

end Sample

/-- **Without balance a blob can be lost.** Everything else is as it has to be. The blob
is acknowledged by ten nodes, and a client that asks right after does not find it: both
lookups end in the branch they began in. -/
theorem Cluster.stored_is_lost :
    ∃ (cluster : Cluster) (rpc rpc' : Rpc Table (Net Table)) (bytes body : List UInt8)
        (world world' : World Table (Net Table)),
      cluster.Honest rpc ∧ cluster.Honest rpc' ∧ Plain bytes
        ∧ encodeRequestWithProof (keyForValue cluster.crypto bytes) (.blob bytes) [] = some body
        ∧ body ∈ cluster.bodies ∧ cluster.Healthy world.net
        ∧ Steady cluster.nodes rpc.myContact.id world.table
        ∧ cluster.Later cluster.bodies
          (rpc.storeValueWithProof cluster.crypto (.blob bytes) [] world).2.net world'.net
        ∧ world'.net.onTheWay = [] ∧ Steady cluster.nodes rpc'.myContact.id world'.table
        ∧ (rpc.storeValueWithProof cluster.crypto (.blob bytes) [] world).1.2 = K
        ∧ (rpc'.lookupValue cluster.crypto (keyForValue cluster.crypto bytes) world').1 = none :=
  ⟨Sample.unbalanced, Sample.clientAt (Sample.aside 0), Sample.clientAt (Sample.aside 0x20),
    Codec.textBytes "x", Sample.body (.blob (Codec.textBytes "x")) [],
    Sample.startAt Sample.lopsided (Sample.aside 0),
    ⟨(Sample.startAt Sample.lopsided (Sample.aside 0x20)).table,
      ((Sample.clientAt (Sample.aside 0)).storeValueWithProof Sample.unbalanced.crypto
        (.blob (Codec.textBytes "x")) []
        (Sample.startAt Sample.lopsided (Sample.aside 0))).2.net.quiet⟩,
    Sample.honest_clientAt Sample.nodup_lopsided (by decide +kernel),
    Sample.honest_clientAt Sample.nodup_lopsided (by decide +kernel),
    plain_textBytes (by decide), by decide +kernel, List.mem_cons_self,
    healthy_fresh rfl Sample.nodup_address_lopsided,
    Sample.steady_startAt Sample.nodup_lopsided (by decide +kernel), later_quiet _ _, rfl,
    Sample.steady_startAt Sample.nodup_lopsided (by decide +kernel), by decide +kernel⟩

end Kademlia
