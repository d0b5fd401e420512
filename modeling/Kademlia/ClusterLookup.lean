import Kademlia.Cluster

/-!
# Lookups in a network

In a network whose tables are at rest, and that is balanced around a key, a
lookup of the key is exact: the nodes it finds are the `K` nearest there are,
from whatever node it starts and in whatever order the calls complete
(`Honest.selects_targets`). The lookup itself only knows that it found the
nearest it heard of, each of whom it asked. What they answered leads on, and so
there is nobody nearer it did not hear of (`Nearest.Selects.of_leads`).

Three things are assumed. Every call of the client
completes; a lookup passes over a peer that does not answer, and what only that
peer knows is missed. Tables are at rest, so that an answer is that of a table
that has heard of every node. And the network is balanced around the key: where
it is not, nodes of one branch may name each other only, and a lookup among
them ends there though every call completed (`targets_miss_nearest`).

Everything stored or asked for goes through a lookup, so two clients agree on
where a value is, without having heard of each other. A value stored is then
found from everywhere (`stored_is_found`).
-/

namespace Kademlia

open HandleRpc

/-! ## Lookups that attend to every answer

The loop of a lookup, without a network: if answers are of a certain kind, then
whoever was asked and is not in flight has given such an answer, and all it
named was heard. Each of the three moves of the loop keeps this. -/

/-- **A lookup that attends**: it knows and asks only contacts of a set, and of
whomever it asked it waits for the answer, or has heard all of an answer. -/
structure LookupState.Attends (S : Set Contact) (answers : Contact → List Contact → Prop)
    (myId : NodeId) (st : LookupState) : Prop where
  /-- The candidates are of the set. -/
  candidates : ∀ c ∈ st.candidates, c ∈ S
  /-- The calls in flight are to contacts of the set. -/
  inFlight : ∀ c ∈ st.inFlight, c ∈ S
  /-- Whoever was heard of is of the set, except ourselves. -/
  heard : ∀ c ∈ st.heard, c.id ≠ myId → c ∈ S
  /-- Whoever was asked has answered, or a call is in flight. -/
  answered : ∀ c ∈ st.probes, c ∈ st.inFlight ∨ ∃ contacts, answers c contacts
    ∧ contacts ⊆ st.heard

section Attends

variable {S S' : Set Contact} {answers answers' : Contact → List Contact → Prop} {myId : NodeId}
  {st : LookupState}

theorem LookupState.Attends.mono (h : st.Attends S answers myId) (hS : S ⊆ S')
    (hanswers : ∀ c contacts, answers c contacts → answers' c contacts) :
    st.Attends S' answers' myId := by
  refine ⟨fun c hc => hS (h.candidates c hc), fun c hc => hS (h.inFlight c hc),
    fun c hc hne => hS (h.heard c hc hne), fun c hc => (h.answered c hc).imp_right ?_⟩
  rintro ⟨contacts, hcontacts, hsub⟩
  exact ⟨contacts, hanswers c contacts hcontacts, hsub⟩

/-- A lookup starts with what the table answers. -/
theorem attends_startLookup {τ ν : Type} [CloseNodes τ] {target : NodeId} {world : World τ ν}
    (h : ∀ c ∈ CloseNodes.closeNodes world.table target, c ∈ S) :
    (Rpc.startLookup target world).Attends S answers myId :=
  ⟨fun c hc => h c (Nearest.mem_sortBy.mp (List.mem_of_mem_take hc)),
    fun _ hc => absurd hc List.not_mem_nil, fun _ hc => absurd hc List.not_mem_nil,
    fun _ hc => absurd hc List.not_mem_nil⟩

theorem LookupState.Attends.start (h : st.Attends S answers myId) {next : Contact}
    (hnext : next ∈ st.candidates) : (st.start next).Attends S answers myId := by
  refine ⟨h.candidates, fun c hc => ?_, h.heard, fun c hc => ?_⟩
  · rcases List.mem_append.mp hc with hc | hc
    · exact h.inFlight c hc
    · rw [List.mem_singleton.mp hc]
      exact h.candidates next hnext
  · rcases List.mem_append.mp hc with hc | hc
    · exact (h.answered c hc).imp_left (List.mem_append_left _)
    · exact Or.inl (List.mem_append_right _ hc)

/-- Starting calls. -/
theorem LookupState.Attends.fill (h : st.Attends S answers myId) (slots : ℕ) :
    (st.fill slots).Attends S answers myId := by
  induction slots generalizing st with
  | zero => exact h
  | succ slots ih =>
    unfold LookupState.fill
    split
    · exact h
    · next next hfind => exact ih (h.start (List.mem_of_find?_eq_some hfind))

/-- Taking in an answer. -/
theorem LookupState.Attends.absorb (h : st.Attends S answers myId) {contact : Contact}
    {rest : List Contact} (hperm : (contact :: rest).Perm st.inFlight) (contacts : List Contact)
    (hS : ∀ c ∈ contacts, c.id ≠ myId → c ∈ S) (hanswers : answers contact contacts)
    (target : NodeId) : (st.absorb myId target rest contacts).Attends S answers myId := by
  refine ⟨fun c hc => ?_, fun c hc => h.inFlight c (hperm.subset (List.mem_cons_of_mem _ hc)),
    fun c hc => (List.mem_append.mp hc).elim (h.heard c) (hS c), fun c hc => ?_⟩
  · have hmem := Nearest.mem_sortBy.mp
      ((Nearest.dedupBy_sublist _ _).subset (List.mem_of_mem_take hc))
    refine (List.mem_append.mp hmem).elim (h.candidates c) fun hnew => ?_
    obtain ⟨hin, hne⟩ := List.mem_filter.mp hnew
    exact hS c hin (bne_iff_ne.mp hne)
  · rcases h.answered c hc with hflight | ⟨contacts', hcontacts', hsub⟩
    · rcases List.mem_cons.mp (hperm.symm.subset hflight) with rfl | hrest
      · exact Or.inr ⟨contacts, hanswers, List.subset_append_right _ _⟩
      · exact Or.inl hrest
    · exact Or.inr ⟨contacts', hcontacts', fun x hx => List.mem_append_left _ (hsub hx)⟩

end Attends

namespace Cluster

variable {A : Type} [CloseNodes A] {cluster : Cluster} {c : Contact} {context : Context A}
  {net : Net A}

/-! ## What sound nodes reply

A reply is bytes. It reads as what the table answers, or what there is to say
about a key, since a sound node's answers can be written. -/

/-- A sound node's reply to a node query reads as what its table answers. -/
theorem Sound.nodesIn_route (h : cluster.Sound c context) (target : NodeId) :
    Rpc.nodesIn (HandleRpc.route cluster.crypto context .findNode ((serialize target).getD [])).1
      = CloseNodes.closeNodes context.closeNodes target := by
  obtain ⟨body, hbody, -⟩ := fits_key target
  have hbody' : (RpcCall.findNode target).body = some body := hbody
  have hread : (RpcCall.findNode target).read
      (HandleRpc.route cluster.crypto context .findNode body).1 = _ :=
    RpcCall.read_route h.answers hbody'
  rw [show serialize target = some body from hbody]
  exact RpcResult.contacts.inj hread

/-- A sound node's reply to a value query reads as what there is to say. -/
theorem Sound.answerIn_route (h : cluster.Sound c context) (key : Key) :
    Rpc.answerIn (HandleRpc.route cluster.crypto context .findValue ((serialize key).getD [])).1
      = FindValue.reply context key := by
  obtain ⟨body, hbody, -⟩ := fits_key key
  have hbody' : (RpcCall.findValue key).body = some body := hbody
  have hread : (RpcCall.findValue key).read
      (HandleRpc.route cluster.crypto context .findValue body).1 = _ :=
    RpcCall.read_route h.answers hbody'
  rw [show serialize key = some body from hbody]
  exact RpcResult.answer.inj hread

/-- **A reply on its way was given by the sound node the call was to.** -/
theorem Healthy.of_given (h : cluster.Healthy net) {N : Contact → Values → Prop}
    {rpc : Rpc A (Net A)} {method : Method} {body : List UInt8} (hc : c ∈ cluster.nodes)
    {reply : Option (List UInt8)} (hp : Given A cluster N (rpc.request method body c, reply)) :
    ∃ context : Context A, cluster.Sound c context ∧ N c context.values
      ∧ reply = (HandleRpc.route cluster.crypto context method body).1 := by
  obtain ⟨c', hc', hpeer, context, hsound, hN, sender, method', body', hpayload, hreply⟩ := hp
  obtain rfl : c = c' := h.eq_of_address hc hc' hpeer
  obtain ⟨-, rfl, rfl⟩ := framed_inj hpayload
  exact ⟨context, hsound, hN, hreply⟩

/-! ## Node lookups

The kind of answer is that of some table at rest. The table need not be the one
the node has now; it is the one it had when it replied. -/

variable {target : NodeId} {st : LookupState}

/-- **What a lookup has been told**: it knows nodes only, and whoever was asked and
answered did so as a table at rest does. -/
def Told (A : Type) [CloseNodes A] (cluster : Cluster) (myId target : NodeId) (st : LookupState) :
    Prop :=
  st.Attends cluster.nodes (fun c contacts => ∃ table : A, Steady cluster.nodes c.id table
    ∧ contacts = CloseNodes.closeNodes table target) myId

variable {rpc : Rpc A (Net A)} {Inv : Net A → Prop}

/-- What holds of the network while a client looks nodes up. -/
def KeptAsking (cluster : Cluster) (rpc : Rpc A (Net A)) (method : Method) (body : List UInt8)
    (Inv : Net A → Prop) : Prop :=
  ∀ asked : List Contact, (∀ c ∈ asked, c ∈ cluster.nodes) →
    cluster.Kept rpc.myContact (asked.map (rpc.request method body)) Inv

/-- **The loop of a lookup in a network.** It is told by sound nodes
throughout, and leaves the client's table as it is. By induction on the rounds:
the next call completes with a reply that a sound node gave, which is all of
what its table answers; the contacts in it are nodes, and offering them to a
table at rest changes nothing. -/
theorem lookupLoop_told (h : cluster.Honest rpc)
    (hkept : KeptAsking cluster rpc .findNode ((serialize target).getD []) Inv) (rounds : ℕ)
    {st : LookupState} {world : World A (Net A)} (hst : Told A cluster rpc.myContact.id target st)
    (hnet : Inv world.net) (htable : Steady cluster.nodes rpc.myContact.id world.table) :
    Told A cluster rpc.myContact.id target (rpc.lookupLoop target rounds st world).1
      ∧ (rpc.lookupLoop target rounds st world).2.table = world.table
      ∧ Inv (rpc.lookupLoop target rounds st world).2.net := by
  induction rounds generalizing st world with
  | zero => exact ⟨hst, rfl, hnet⟩
  | succ rounds ih =>
    have hfill := LookupState.Attends.fill hst (alpha - st.inFlight.length)
    by_cases hidle : (st.fill (alpha - st.inFlight.length)).inFlight = []
    · have hnone : rpc.next .findNode ((serialize target).getD [])
          (st.fill (alpha - st.inFlight.length)).inFlight world = none :=
        Rpc.next_eq_none_iff.mpr hidle
      unfold Rpc.lookupLoop
      dsimp only
      rw [hnone]
      exact ⟨hfill, rfl, hnet⟩
    · obtain ⟨contact, reply, rest, world', net₁, hnext, htable', hnet', hnet₁, -, hmem⟩ :=
        h.next hidle hfill.inFlight (fun hm => by cases hm) (hkept _ hfill.inFlight) hnet htable
      have hperm := Rpc.next_perm hnext
      have hcontact := hfill.inFlight contact (hperm.subset List.mem_cons_self)
      have hhealthy := (hkept _ hfill.inFlight).healthy _ hnet₁
      obtain ⟨context, hsound, -, rfl⟩ := hhealthy.of_given hcontact (hhealthy.given _ hmem)
      -- the contacts in the reply are offered, and known already
      have hoffer : Rpc.offer ((CloseNodes.closeNodes context.closeNodes target).filter
          (fun c => c.id != rpc.myContact.id)) world' = world' := by
        have heq : cluster.Offered world'.table (((CloseNodes.closeNodes context.closeNodes
            target).filter (fun c => c.id != rpc.myContact.id)).foldl
              CloseNodes.maybeAddContact world'.table) :=
          ⟨_, fun c hc => (hsound.table.subset target c (List.mem_of_mem_filter hc)).1, rfl⟩
        unfold Rpc.offer
        rw [heq.eq (htable' ▸ htable)]
      unfold Rpc.lookupLoop
      dsimp only
      rw [hnext]
      dsimp only
      rw [hsound.nodesIn_route target, hoffer]
      obtain ⟨htold, htab, hinv⟩ := ih (hfill.absorb hperm _
        (fun c hc _ => (hsound.table.subset target c hc).1) ⟨_, hsound.table, rfl⟩ target) hnet'
        (htable' ▸ htable)
      exact ⟨htold, htab.trans htable', hinv⟩

/-- A lookup starts with what the client's table answers. -/
theorem told_startLookup {world : World A (Net A)} {myId : NodeId}
    (htable : Steady cluster.nodes myId world.table) :
    Told A cluster myId target (Rpc.startLookup target world) :=
  attends_startLookup fun c hc => (htable.subset target c hc).1

/-- It starts with all of it. -/
theorem startLookup_perm {world : World A (Net A)} {myId : NodeId}
    (htable : Steady cluster.nodes myId world.table) :
    (Rpc.startLookup target world).candidates.Perm
      (CloseNodes.closeNodes world.table target) := by
  show ((Nearest.sortBy (nearerTo target) (CloseNodes.closeNodes world.table target)).take K).Perm _
  rw [List.take_of_length_le]
  · exact Nearest.sortBy_perm _ _
  · rw [(Nearest.sortBy_perm _ _).length_eq]
    exact htable.length_le target

section Targets

variable {key : Key} {world : World A (Net A)}

/-- **What a lookup comes to in a network**: it was told by sound nodes, and left
the client's table as it is. -/
theorem Honest.runLookup (h : cluster.Honest rpc)
    (hkept : KeptAsking cluster rpc .findNode ((serialize key).getD []) Inv)
    (hnet : Inv world.net) (htable : Steady cluster.nodes rpc.myContact.id world.table) :
    Told A cluster rpc.myContact.id key (rpc.runLookup key world).1
      ∧ (rpc.runLookup key world).2.table = world.table
      ∧ Inv (rpc.runLookup key world).2.net :=
  lookupLoop_told h hkept (2 ^ idBits + 1) (told_startLookup htable) hnet htable

/-- The targets are the client and nodes that it asked. -/
theorem Told.mem_targets (hme : rpc.myContact ∈ cluster.nodes)
    (htold : Told A cluster rpc.myContact.id key (rpc.runLookup key world).1) {c : Contact}
    (hc : c ∈ (rpc.targets key world).1) : c ∈ cluster.nodes
      ∧ (c = rpc.myContact ∨ c ∈ (rpc.runLookup key world).1.candidates) := by
  have hmem := Nearest.mem_sortBy.mp
    ((Nearest.dedupBy_sublist _ _).subset (List.mem_of_mem_take hc))
  rcases List.mem_append.mp hmem with hc | hc
  · exact ⟨htold.candidates c hc, Or.inr hc⟩
  · rw [List.mem_singleton.mp hc]
    exact ⟨hme, Or.inl rfl⟩

/-- Everyone heard of is a node. -/
theorem Told.heardOf_subset (hme : rpc.myContact ∈ cluster.nodes)
    (htold : Told A cluster rpc.myContact.id key (rpc.runLookup key world).1)
    (htable : Steady cluster.nodes rpc.myContact.id world.table) :
    rpc.heardOf key world ∪ {rpc.myContact.id} ⊆ Contact.id '' cluster.nodes := by
  rintro i ((⟨c, hc, rfl⟩ | ⟨⟨c, hc, rfl⟩, hne⟩) | rfl)
  · exact ⟨c, (told_startLookup htable).candidates c hc, rfl⟩
  · exact ⟨c, htold.heard c hc hne, rfl⟩
  · exact ⟨_, hme, rfl⟩

/-- **Every target has answered**, and the lookup has heard of whomever it named. -/
theorem Told.asked (hme : rpc.myContact ∈ cluster.nodes)
    (htold : Told A cluster rpc.myContact.id key (rpc.runLookup key world).1)
    (htable : Steady cluster.nodes rpc.myContact.id world.table) {c : Contact}
    (hc : c ∈ (rpc.targets key world).1) :
    ∃ table : A, Steady cluster.nodes c.id table ∧ ∀ x ∈ CloseNodes.closeNodes table key,
      x.id ∈ rpc.heardOf key world ∪ {rpc.myContact.id} := by
  obtain ⟨hok, hidle, hqueried⟩ := runLookup_ok rpc key world
  rcases (htold.mem_targets hme hc).2 with rfl | hcand
  · -- our own answer is what we started from
    exact ⟨world.table, htable,
      fun x hx => Or.inl (Or.inl ⟨x, (startLookup_perm htable).symm.subset hx, rfl⟩)⟩
  · obtain ⟨_, ⟨table, hsteady, rfl⟩, hsub⟩ := (htold.answered c
      (hok.asked c hcand (hqueried c hcand))).resolve_left (by rw [hidle]; exact List.not_mem_nil)
    refine ⟨table, hsteady, fun x hx => ?_⟩
    by_cases hself : x.id = rpc.myContact.id
    · exact Or.inr hself
    · exact Or.inl (Or.inr ⟨⟨x, hsub hx, rfl⟩, hself⟩)

/-- The ids of the targets are those of the `K` nodes nearest to the key. They
are the nearest heard of, each of them was asked, and its answer was heard and
leads on. -/
theorem Told.selects_ids (hme : rpc.myContact ∈ cluster.nodes)
    (htold : Told A cluster rpc.myContact.id key (rpc.runLookup key world).1)
    (htable : Steady cluster.nodes rpc.myContact.id world.table)
    (hbalanced : Balanced (Contact.id '' cluster.nodes) key) :
    Nearest.Selects (fun i => distance i key) K (Contact.id '' cluster.nodes)
      ((rpc.targets key world).1.map Contact.id) := by
  have hsel := selects_targets rpc key world
  refine hsel.of_leads (distance_injective key) (htold.heardOf_subset hme htable)
    (fun hnil => ?_) fun a ha => ?_
  · -- at least we are a target
    rw [hnil] at hsel
    exact (hsel.least rpc.myContact.id (Or.inr rfl)).elim List.not_mem_nil
      fun hfull => absurd hfull.1 (by decide)
  · obtain ⟨c, hc, rfl⟩ := List.mem_map.mp ha
    obtain ⟨table, hsteady, hheard⟩ := htold.asked hme htable hc
    refine ⟨(CloseNodes.closeNodes table key).map Contact.id, hsteady.nodup key,
      fun i hi => ?_, hsteady.leads key hbalanced⟩
    obtain ⟨x, hx, rfl⟩ := List.mem_map.mp hi
    exact hheard x hx

/-- **The targets of a key are the `K` nodes of the network nearest to it.** -/
theorem Honest.selects_targets (h : cluster.Honest rpc)
    (hkept : KeptAsking cluster rpc .findNode ((serialize key).getD []) Inv)
    (hbalanced : Balanced (Contact.id '' cluster.nodes) key)
    (hnet : Inv world.net) (htable : Steady cluster.nodes rpc.myContact.id world.table) :
    Nearest.Selects (fun c => distance c.id key) K cluster.nodes (rpc.targets key world).1 := by
  obtain ⟨htold, -⟩ := h.runLookup hkept hnet htable
  have hids := htold.selects_ids h.mem htable hbalanced
  have hsorted := hids.sorted
  rw [List.pairwise_map] at hsorted
  refine ⟨hsorted, fun c hc => (htold.mem_targets h.mem hc).1,
    (List.length_map Contact.id).symm.trans_le hids.length_le, fun c hc => ?_⟩
  refine (hids.least c.id ⟨c, hc, rfl⟩).imp (fun hmem => ?_) fun hout => ?_
  · obtain ⟨c', hc', hid⟩ := List.mem_map.mp hmem
    exact cluster.injOn_id (htold.mem_targets h.mem hc').1 hc hid ▸ hc'
  · exact ⟨(List.length_map Contact.id).symm.trans hout.1,
      fun b hb => hout.2 b.id (List.mem_map.mpr ⟨b, hb, rfl⟩)⟩

end Targets

end Cluster

namespace Sample

/-- A network of certain nodes, and the requests to store that there are. -/
def network (members : List Contact) (hids : (members.map Contact.id).Nodup)
    (bodies : List (List UInt8))
    (h : Set.InjOn crypto.sha256 (hashed {body | body ∈ bodies})) : Cluster where
  crypto := crypto
  nodes := {c | c ∈ members}
  dns := fun _ => some owner
  foreign := ∅
  bodies := {body | body ∈ bodies}
  foreign_subset := Set.empty_subset _
  injOn_id _ ha _ hb := List.inj_on_of_nodup_map hids ha hb
  injOn_sha256 := h

/-- A client at one of the nodes. -/
def clientAt (c : Contact) : Rpc Table (Net Table) :=
  ⟨c, Cluster.prompt crypto (fun _ => some owner) c⟩

theorem honest_clientAt {members : List Contact} (hids : (members.map Contact.id).Nodup)
    {bodies : List (List UInt8)} {h : Set.InjOn crypto.sha256 (hashed {body | body ∈ bodies})}
    {c : Contact} (hc : c ∈ members) : (network members hids bodies h).Honest (clientAt c) :=
  Cluster.honest_prompt hc

/-- A network when it was just set up, as a node sees it. -/
def startAt (members : List Contact) (c : Contact) : World Table (Net Table) :=
  ⟨Table.run c.id (members.map TableOp.maybeAdd), Cluster.fresh (fun _ => some owner) members⟩

/-- The node's table is at rest. -/
theorem steady_startAt {members : List Contact} (hids : (members.map Contact.id).Nodup)
    {c : Contact} (hc : c ∈ members) :
    Steady {c | c ∈ members} (clientAt c).myContact.id (startAt members c).table := by
  have hinj : Set.InjOn Contact.id {c | c ∈ members} :=
    fun _ ha _ hb => List.inj_on_of_nodup_map hids ha hb
  have hsteady := (Table.converged_run c.id hinj).steady hinj
    (by rw [Table.run_maybeAdd_myId]; exact ⟨c, hc, rfl⟩)
  rwa [Table.run_maybeAdd_myId] at hsteady

/-- Twenty nodes in two branches of ten: the ids start with a clear and a set bit. -/
def halves : List Contact :=
  ([0, 1, 2, 3, 4, 5, 6, 7, 8, 9, 128, 129, 130, 131, 132, 133, 134, 135, 136, 137] :
    List UInt8).map (fun byte => peer byte (9000 + byte.toUInt16))

theorem nodup_halves : (halves.map Contact.id).Nodup := by decide +kernel

/-- A node of the lopsided network, by how it differs from `0x8d`. -/
def aside (byte : UInt8) : Contact := Table.contact (0x8d ^^^ byte) (9000 + byte.toUInt16)

/-- A network of 31 nodes that is not balanced around keys that start with `0x2d`. Those
of the first branch have none across the first bit, where such a key is, ten across the
second, and then do not name the ten across the third, which are the nearest. -/
def lopsided : List Contact :=
  ([0, 0x10, 0x11, 0x12, 0x13, 0x14, 0x15, 0x16, 0x17, 0x18, 0x19, 0x20, 0x21, 0x22, 0x23, 0x24,
    0x25, 0x26, 0x27, 0x28, 0x29, 0x40, 0x41, 0x42, 0x43, 0x44, 0x45, 0x46, 0x47, 0x48, 0x49] :
    List UInt8).map aside

theorem nodup_lopsided : (lopsided.map Contact.id).Nodup := by decide +kernel

theorem nodup_address_lopsided : (lopsided.map Contact.address).Nodup := by decide +kernel

end Sample

/-- **Without balance a lookup can miss the nearest node.** The network is in order, the
client is one of its nodes, its table is at rest, and every call completes: what the
nodes of its branch know of each other leads nowhere else. -/
theorem Cluster.targets_miss_nearest :
    ∃ (cluster : Cluster) (rpc : Rpc Table (Net Table)) (key : Key)
        (world : World Table (Net Table)),
      cluster.Honest rpc ∧ cluster.Healthy world.net
        ∧ Steady cluster.nodes rpc.myContact.id world.table
        ∧ ¬ Nearest.Selects (fun c => distance c.id key) K cluster.nodes
          (rpc.targets key world).1 := by
  refine ⟨Sample.network Sample.lopsided Sample.nodup_lopsided [] (Sample.injOn_hashed (by decide)),
    Sample.clientAt (Sample.aside 0), keyForValue Sample.crypto (Codec.textBytes "x"),
    Sample.startAt Sample.lopsided (Sample.aside 0),
    Sample.honest_clientAt Sample.nodup_lopsided (by decide +kernel),
    healthy_fresh rfl Sample.nodup_address_lopsided,
    Sample.steady_startAt Sample.nodup_lopsided (by decide +kernel), fun hsel => ?_⟩
  have hfound : Sample.aside 0x20 ∉ ((Sample.clientAt (Sample.aside 0)).targets
        (keyForValue Sample.crypto (Codec.textBytes "x"))
        (Sample.startAt Sample.lopsided (Sample.aside 0))).1
      ∧ Sample.aside 0 ∈ ((Sample.clientAt (Sample.aside 0)).targets
        (keyForValue Sample.crypto (Codec.textBytes "x"))
        (Sample.startAt Sample.lopsided (Sample.aside 0))).1 := by
    decide +kernel
  obtain ⟨-, hbeyond⟩ := (hsel.least (Sample.aside 0x20)
    (show _ ∈ Sample.lopsided by decide +kernel)).resolve_left hfound.1
  exact absurd (hbeyond _ hfound.2) (by decide +kernel)

end Kademlia
