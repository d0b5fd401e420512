import Kademlia.CacheRuns
import Kademlia.Rpc

/-!
# Upkeep of the routing table

Contacts come into the routing table by being offered, and leave it in two
ways: a nearer contact pushes them out of the siblings, or a call to them fails
and they are forgotten. The second happens after single calls, and to many
contacts at once in a liveness round, which pings everything the table holds.
A node whose own network is down would forget everyone, and could not come back.
So a contact is only forgotten while more than `K` are held.

The floor this gives has to survive the first way too. A contact is pushed out
only where `K` siblings are held, and the siblings stay full then
(`Table.length_siblings_of_evicts`); so below `K` nothing is ever lost, and from
`K` on there are always `K`.

A liveness round counts anew before each contact it drops. A contact held is one
contact in both layers, so each that goes is one less above the floor, and the
round drops exactly as many as are above it, if so many are dead. Which of them
depends on the order they are gone through.
-/

namespace Kademlia

/-- The table a node routes with, and its cache. -/
abbrev RecommendedCloseNodes := CachedCloseNodes Table

/-- How long the cache serves an answer, in milliseconds. -/
def cacheTtl : ℕ := 500

/-- How many answers the cache keeps. -/
def cacheCapacity : ℕ := 64

/-- A table a node starts with. -/
def recommended (myId : NodeId) : RecommendedCloseNodes :=
  .ttlOnly (SiblingList.new myId (StaticBucket.new myId)) cacheTtl cacheCapacity

/-! ## Forgetting

The program walks the table and counts distinct ids until there are more than
`K`, and only then removes. A contact that is in both layers comes out of the
walk twice, and is counted once. -/

section Forget

variable {τ : Type} [CloseNodes τ]

/-- The ids a table holds, each counted once. -/
def distinctIds (table : τ) : Finset NodeId :=
  ((CloseNodes.contactsIter table).map Contact.id).toFinset

/-- Whether a walk over contacts comes to more than `K` ids, with those it has
come to so far. It stops as soon as it does. -/
def Rpc.plenty (distinct : List NodeId) : List Contact → Bool
  | [] => false
  | known :: rest =>
    let distinct := distinct.insert known.id
    if K < distinct.length then true else plenty distinct rest

/-- **The walk counts distinct ids.** It stops at the first contact with which
there are more than `K`, and what is still to come could only add to them. -/
theorem Rpc.plenty_eq_true_iff {distinct : List NodeId} (hnodup : distinct.Nodup)
    (hle : distinct.length ≤ K) (contacts : List Contact) :
    plenty distinct contacts = true
      ↔ K < (distinct.toFinset ∪ (contacts.map Contact.id).toFinset).card := by
  induction contacts generalizing distinct with
  | nil =>
    rw [plenty, List.map_nil, List.toFinset_nil, Finset.union_empty,
      List.toFinset_card_of_nodup hnodup]
    exact ⟨nofun, fun h => absurd h hle.not_gt⟩
  | cons known rest ih =>
    have hunion : distinct.toFinset ∪ ((known :: rest).map Contact.id).toFinset
        = (distinct.insert known.id).toFinset ∪ (rest.map Contact.id).toFinset := by
      ext i
      simp only [List.map_cons, Finset.mem_union, List.mem_toFinset, List.mem_cons,
        List.mem_insert_iff]
      tauto
    rw [plenty, hunion]
    split
    · next hmany =>
      refine iff_of_true rfl (hmany.trans_le ?_)
      rw [← List.toFinset_card_of_nodup hnodup.insert]
      exact Finset.card_le_card Finset.subset_union_left
    · next hfew => exact ih hnodup.insert (not_lt.mp hfew)

/-- **Forgetting walks the table until it has seen enough**: `forget` counts
every distinct id, and the loop of the program, which stops at the first id too
many, decides the same. -/
theorem Rpc.forget_eq (table : τ) (contact : Contact) : forget table contact
    = if plenty [] (CloseNodes.contactsIter table)
      then CloseNodes.removeContact table contact else table := by
  have hcount := plenty_eq_true_iff List.nodup_nil (Nat.zero_le _) (CloseNodes.contactsIter table)
  rw [List.toFinset_nil, Finset.empty_union, List.card_toFinset] at hcount
  unfold forget
  simp only [hcount]

/-- Forgetting removes where more than `K` ids are held, and does nothing
elsewhere. -/
theorem Rpc.forget_of_lt {table : τ} (h : K < (distinctIds table).card) (contact : Contact) :
    forget table contact = CloseNodes.removeContact table contact := by
  rw [distinctIds, List.card_toFinset] at h
  exact if_pos h

theorem Rpc.forget_of_le {table : τ} (h : (distinctIds table).card ≤ K) (contact : Contact) :
    forget table contact = table := by
  rw [distinctIds, List.card_toFinset] at h
  exact if_neg h.not_gt

/-- An order in which a set of contacts is gone through. -/
abbrev Order := {order : List Contact → List Contact // ∀ l, (order l).Perm l}

/-- The contacts a liveness round finds gone: no answer, or one from another id.
The answers are by position, as a contact the walk comes to twice is pinged
twice. -/
def deadContacts (answers : ℕ → Option NodeId) (contacts : List Contact) : List Contact :=
  contacts.zipIdx.foldl
    (fun dead p => if answers p.2 = some p.1.id then dead else dead.insert p.1) []

/-- **A liveness round**: ping every contact, then forget those that are gone, in
whatever order the set of them is gone through. -/
def checkLiveness (answers : ℕ → Option NodeId) (order : Order) (table : τ) : τ :=
  (order.1 (deadContacts answers (CloseNodes.contactsIter table))).foldl Rpc.forget table

/-- What is done to a routing table. -/
inductive Upkeep where
  /-- A contact is offered. -/
  | maybeAdd (contact : Contact)
  /-- A contact that did not answer is forgotten. -/
  | forget (contact : Contact)
  /-- A liveness round is made. -/
  | checkLiveness (answers : ℕ → Option NodeId) (order : Order)

/-- One operation. -/
def Upkeep.apply (table : τ) : Upkeep → τ
  | .maybeAdd contact => CloseNodes.maybeAddContact table contact
  | .forget contact => Rpc.forget table contact
  | .checkLiveness answers order => Kademlia.checkLiveness answers order table

/-- The table after a sequence of operations. -/
def Upkeep.run (table : τ) (ops : List Upkeep) : τ := ops.foldl apply table

theorem Upkeep.run_append (table : τ) (ops more : List Upkeep) :
    run table (ops ++ more) = run (run table ops) more := List.foldl_append

end Forget

/-! ## The floor

What an operation keeps is told by two conditions that are not one: from `K`
ids on it keeps at least `K` of them, and below `K` it keeps all. The second is
the stronger claim, and is needed where a table fills up for the first time. -/

namespace RecommendedCloseNodes

variable {table : RecommendedCloseNodes}

theorem distinctIds_eq (table : RecommendedCloseNodes) :
    distinctIds table = (Table.ids table.inner).toFinset := rfl

/-- The siblings are so many ids. -/
theorem length_siblings_le_distinctIds (h : table.inner.Ok) :
    table.inner.siblings.toList.length ≤ (distinctIds table).card := by
  rw [← List.length_map Contact.id, ← List.toFinset_card_of_nodup h.nodup_siblings]
  refine Finset.card_le_card (fun i hi => ?_)
  rw [distinctIds_eq, List.mem_toFinset]
  exact Table.mem_ids.mpr (Or.inl (List.mem_toFinset.mp hi))

/-- A new table is in order. -/
theorem ok_recommended (myId : NodeId) : (recommended myId).inner.Ok := SiblingList.ok_new myId

/-- What an operation on a table in order leaves: the table in order, no fewer
ids than `K` if there were as many, and all ids if there were fewer. -/
structure Kept (table after : RecommendedCloseNodes) : Prop where
  /-- The table is in order. -/
  ok : after.inner.Ok
  /-- At least `K` ids stay at least `K`. -/
  floor : K ≤ (distinctIds table).card → K ≤ (distinctIds after).card
  /-- Fewer than `K` ids are all kept. -/
  subset : (distinctIds table).card < K → distinctIds table ⊆ distinctIds after

theorem Kept.refl (h : table.inner.Ok) : Kept table table :=
  ⟨h, id, fun _ => Finset.Subset.refl _⟩

/-- An offer. -/
theorem kept_maybeAdd (h : table.inner.Ok) (c : Contact) :
    Kept table (table.maybeAddContact c) := by
  have hinner : (table.maybeAddContact c).inner = table.inner.maybeAddContact c := by
    unfold CachedCloseNodes.maybeAddContact
    dsimp only
    split <;> rfl
  have hok : (table.maybeAddContact c).inner.Ok := hinner ▸ h.maybeAddContact c
  -- an id that is lost was pushed out of full siblings, which stay full
  have hlost : ¬ distinctIds table ⊆ distinctIds (table.maybeAddContact c)
      → table.inner.Evicts c := by
    intro hnot
    obtain ⟨i, hi, hi'⟩ := Finset.not_subset.mp hnot
    rw [distinctIds_eq, List.mem_toFinset] at hi hi'
    exact Table.evicts_of_lost h hi (hinner ▸ hi')
  refine ⟨hok, fun hfloor => ?_, fun hfew => ?_⟩
  · by_cases hsub : distinctIds table ⊆ distinctIds (table.maybeAddContact c)
    · exact hfloor.trans (Finset.card_le_card hsub)
    · have hfull := Table.length_siblings_of_evicts (hlost hsub)
      rw [← hinner] at hfull
      exact hfull.symm.le.trans (length_siblings_le_distinctIds hok)
  · by_contra hnot
    have hfull := (hlost hnot).2.2.1
    exact absurd (length_siblings_le_distinctIds h) (by omega)

/-- A contact forgotten. -/
theorem kept_forget (h : table.inner.Ok) (c : Contact) : Kept table (Rpc.forget table c) := by
  by_cases hmany : K < (distinctIds table).card
  · rw [Rpc.forget_of_lt hmany]
    refine ⟨h.removeContact c, fun _ => ?_, fun hfew => absurd hmany hfew.le.not_gt⟩
    -- at most the contact's own id goes
    have hsub : distinctIds table
        ⊆ insert c.id (distinctIds (CloseNodes.removeContact table c)) := by
      intro i hi
      rw [Finset.mem_insert]
      obtain ⟨x, hx, rfl⟩ := List.mem_map.mp (List.mem_toFinset.mp hi)
      refine or_iff_not_imp_left.mpr (fun hne => List.mem_toFinset.mpr ?_)
      refine List.mem_map.mpr ⟨x, ?_, rfl⟩
      exact (h.mem_contactsIter_removeContact c x).mpr ⟨hx, fun hxc => hne (by rw [hxc])⟩
    have hcard := (Finset.card_le_card hsub).trans (Finset.card_insert_le _ _)
    omega
  · rw [Rpc.forget_of_le (not_lt.mp hmany)]
    exact Kept.refl h

/-- Two operations in a row, of which the first keeps every id the second is
asked to keep. -/
theorem Kept.trans {middle after : RecommendedCloseNodes} (h : Kept table middle)
    (hcard : (distinctIds table).card < K → (distinctIds middle).card < K)
    (h' : Kept middle after) : Kept table after :=
  ⟨h'.ok, fun hfloor => h'.floor (h.floor hfloor),
    fun hfew => (h.subset hfew).trans (h'.subset (hcard hfew))⟩

/-- Any number of contacts forgotten. -/
theorem kept_foldl_forget (h : table.inner.Ok) (contacts : List Contact) :
    Kept table (contacts.foldl Rpc.forget table) := by
  induction contacts generalizing table with
  | nil => exact Kept.refl h
  | cons c contacts ih =>
    have hkept := kept_forget h c
    refine hkept.trans (fun hfew => ?_) (ih hkept.ok)
    rwa [Rpc.forget_of_le hfew.le]

/-- **What every operation keeps.** An offer loses an id only by pushing out a
sibling, and then there are `K` siblings afterwards. Forgetting removes one id
and only where there are more than `K`, and a liveness round is nothing but
forgetting. -/
theorem kept_apply (h : table.inner.Ok) (op : Upkeep) : Kept table (op.apply table) := by
  cases op with
  | maybeAdd c => exact kept_maybeAdd h c
  | forget c => exact kept_forget h c
  | checkLiveness answers order => exact kept_foldl_forget h _

/-- A run keeps the table in order, and at least `K` ids where there were as
many. -/
theorem floor_run (h : table.inner.Ok) (ops : List Upkeep) : (Upkeep.run table ops).inner.Ok
    ∧ (K ≤ (distinctIds table).card → K ≤ (distinctIds (Upkeep.run table ops)).card) := by
  induction ops generalizing table with
  | nil => exact ⟨h, id⟩
  | cons op ops ih =>
    have hkept := kept_apply h op
    obtain ⟨hok, hfloor⟩ := ih hkept.ok
    exact ⟨hok, fun hle => hfloor (hkept.floor hle)⟩

/-- **The floor a node can rejoin through.** After any operations, with any
answers to the pings: forgetting does nothing while `K` ids or fewer are held,
no operation loses an id while fewer are held, and once `K` are held there are
always at least `K`.

A node that is cut off finds every peer dead, and forgets them until `K` are
left. Those are not the nearest ones, nor are they known to be alive; they are
enough to ask when the network is back. The count before each removal is over
the whole table, siblings and buckets, by id. -/
theorem rejoin_floor (myId : NodeId) (ops : List Upkeep) :
    (∀ contact, (distinctIds (Upkeep.run (recommended myId) ops)).card ≤ K →
        Rpc.forget (Upkeep.run (recommended myId) ops) contact
          = Upkeep.run (recommended myId) ops)
      ∧ (∀ op : Upkeep, (distinctIds (Upkeep.run (recommended myId) ops)).card < K →
        distinctIds (Upkeep.run (recommended myId) ops)
          ⊆ distinctIds (op.apply (Upkeep.run (recommended myId) ops)))
      ∧ (∀ more : List Upkeep, K ≤ (distinctIds (Upkeep.run (recommended myId) ops)).card →
        K ≤ (distinctIds (Upkeep.run (recommended myId) (ops ++ more))).card) := by
  have hok := (floor_run (ok_recommended myId) ops).1
  refine ⟨fun contact hle => Rpc.forget_of_le hle contact,
    fun op => (kept_apply hok op).subset, fun more => ?_⟩
  rw [Upkeep.run_append]
  exact (floor_run hok more).2

/-- Eleven contacts, none of which answers a ping: ten are kept. -/
theorem rejoin_floor_sample : K ≤ (distinctIds (Upkeep.run (recommended (Table.contact 0 0).id)
    (([1, 2, 3, 4, 5, 6, 7, 8, 9, 10, 11].map (fun i => .maybeAdd (Table.contact i 1000)))
      ++ [.checkLiveness (fun _ => none) ⟨id, List.Perm.refl⟩]))).card :=
  (rejoin_floor _ _).2.2 _ (by decide +kernel)

/-! ## A liveness round

A round pings what the walk yields, collects the set of those that did not
answer as themselves, and forgets them one after another, in the order a hash
set happens to have. The table may have any contents, and which of the dead are
left at the floor depends on that order; how many are left does not. -/

/-- **Dead is whoever was found gone** at some position of the walk: a contact
that the walk comes to twice is pinged twice, and one failure is enough. -/
theorem mem_deadContacts {answers : ℕ → Option NodeId} {contacts : List Contact} {x : Contact} :
    x ∈ deadContacts answers contacts
      ↔ ∃ i, contacts[i]? = some x ∧ answers i ≠ some x.id := by
  have hfold : ∀ (walk : List (Contact × ℕ)) (dead : List Contact),
      x ∈ walk.foldl
          (fun dead p => if answers p.2 = some p.1.id then dead else dead.insert p.1) dead
        ↔ x ∈ dead ∨ ∃ i, (x, i) ∈ walk ∧ answers i ≠ some x.id := by
    intro walk
    induction walk with
    | nil => simp
    | cons p walk ih =>
      intro dead
      rw [List.foldl_cons, ih]
      obtain ⟨c, j⟩ := p
      simp only [List.mem_cons, Prod.mk.injEq]
      split
      · next hanswer =>
        refine or_congr_right (exists_congr fun i => and_congr_left fun hi => ?_)
        refine (or_iff_right ?_).symm
        rintro ⟨rfl, rfl⟩
        exact hi hanswer
      · next hanswer =>
        rw [List.mem_insert_iff]
        constructor
        · rintro ((rfl | hx) | ⟨i, hi, hgone⟩)
          · exact Or.inr ⟨j, Or.inl ⟨rfl, rfl⟩, hanswer⟩
          · exact Or.inl hx
          · exact Or.inr ⟨i, Or.inr hi, hgone⟩
        · rintro (hx | ⟨i, ⟨rfl, rfl⟩ | hi, hgone⟩)
          · exact Or.inl (Or.inr hx)
          · exact Or.inl (Or.inl rfl)
          · exact Or.inr ⟨i, hi, hgone⟩
  rw [deadContacts, hfold, or_iff_right List.not_mem_nil]
  exact exists_congr fun i => and_congr_left fun _ => List.mem_zipIdx_iff_getElem?

theorem nodup_deadContacts (answers : ℕ → Option NodeId) (contacts : List Contact) :
    (deadContacts answers contacts).Nodup := by
  unfold deadContacts
  refine List.foldlRecOn _ _ List.nodup_nil fun dead hdead p _ => ?_
  split
  · exact hdead
  · exact hdead.insert

/-- The answers to the pings of a walk, where it is the address that decides. -/
def answersOf (ping : SocketAddr → Option NodeId) (contacts : List Contact) (i : ℕ) :
    Option NodeId :=
  contacts[i]?.bind fun c => ping c.address

theorem mem_deadContacts_answersOf {ping : SocketAddr → Option NodeId} {contacts : List Contact}
    {x : Contact} : x ∈ deadContacts (answersOf ping contacts) contacts
      ↔ x ∈ contacts ∧ ping x.address ≠ some x.id := by
  rw [mem_deadContacts, List.mem_iff_getElem?, ← exists_and_right]
  refine exists_congr fun i => and_congr_right fun hi => ?_
  rw [answersOf, hi, Option.bind_some]

/-- **Some contacts leave a table**: they leave both layers, and the others stay
where they are, the siblings in their order. -/
structure Sheds (table : Table) (removed : Finset Contact) (after : Table) : Prop where
  /-- The siblings. -/
  siblings : after.siblings.toList = table.siblings.toList.filter (· ∉ removed)
  /-- Each bucket. -/
  bucket : ∀ i, (after.fallback.contacts i).toList.Perm
    ((table.fallback.contacts i).toList.filter (· ∉ removed))

namespace Sheds

variable {table middle after : Table} {removed removed' : Finset Contact}

theorem refl (table : Table) : Sheds table ∅ table := by
  have hall : ∀ l : List Contact, l.filter (· ∉ (∅ : Finset Contact)) = l := fun l =>
    List.filter_eq_self.mpr fun c _ => decide_eq_true (Finset.notMem_empty c)
  exact ⟨(hall _).symm, fun i => .of_eq (hall _).symm⟩

theorem trans (h : Sheds table removed middle) (h' : Sheds middle removed' after) :
    Sheds table (removed ∪ removed') after := by
  have hboth : ∀ l : List Contact, (l.filter (· ∉ removed)).filter (· ∉ removed')
      = l.filter (· ∉ removed ∪ removed') := by
    intro l
    rw [List.filter_filter]
    refine List.filter_congr fun c _ => ?_
    rw [← Bool.decide_and, decide_eq_decide, Finset.notMem_union, and_comm]
  refine ⟨?_, fun i => ?_⟩
  · rw [h'.siblings, h.siblings, hboth]
  · rw [← hboth]
    exact (h'.bucket i).trans ((h.bucket i).filter _)

/-- What is held afterwards. -/
theorem mem_contactsIter (h : Sheds table removed after) {x : Contact} :
    x ∈ after.contactsIter ↔ x ∈ table.contactsIter ∧ x ∉ removed := by
  rw [SiblingList.mem_contactsIter, SiblingList.mem_contactsIter, h.siblings,
    StaticBucket.mem_contactsIter, StaticBucket.mem_contactsIter, or_and_right, ← exists_and_right,
    List.mem_filter, decide_eq_true_iff]
  refine or_congr_right (exists_congr fun i => ?_)
  rw [(h.bucket i).mem_iff, List.mem_filter, decide_eq_true_iff]

theorem toFinset_contactsIter (h : Sheds table removed after) :
    after.contactsIter.toFinset = table.contactsIter.toFinset \ removed := by
  ext x
  rw [List.mem_toFinset, h.mem_contactsIter, Finset.mem_sdiff, List.mem_toFinset]

/-- A removal. -/
theorem removeContact (h : table.Ok) (c : Contact) : Sheds table {c} (table.removeContact c) := by
  have herase : ∀ l : List Contact, (l.map Contact.id).Nodup →
      l.erase c = l.filter (· ∉ ({c} : Finset Contact)) := by
    intro l hl
    rw [(List.Nodup.of_map _ hl).erase_eq_filter]
    refine List.filter_congr fun x _ => ?_
    rw [Bool.eq_iff_iff, bne_iff_ne, decide_eq_true_iff, Finset.mem_singleton]
  refine ⟨?_, fun i => ?_⟩
  · rw [SiblingList.siblings_removeContact, herase _ h.nodup_siblings]
  · rw [← herase _ (h.fallback.nodup i)]
    exact StaticBucket.removeContact_contacts h.fallback c i

end Sheds

/-- Every contact held has an id of its own. -/
theorem card_distinctIds (h : table.inner.Ok) :
    (distinctIds table).card = table.contactsIter.toFinset.card := by
  have himage : distinctIds table = table.contactsIter.toFinset.image Contact.id := by
    ext i
    simp only [distinctIds, List.mem_toFinset, List.mem_map, Finset.mem_image]
    rfl
  rw [himage]
  refine Finset.card_image_of_injOn fun a ha b hb hid => ?_
  exact h.eq_of_id (List.mem_toFinset.mp ha) (List.mem_toFinset.mp hb) hid

/-- **Forgetting one contact after another** removes as many as there are above
the floor. Every dead contact is held, and a contact that is removed is one id
less in both layers, so the count goes down by one each time until it has come
to `K`. -/
theorem exists_sheds (h : table.inner.Ok) {dead : List Contact} (hnodup : dead.Nodup)
    (hheld : ∀ c ∈ dead, c ∈ table.contactsIter) :
    ∃ removed ⊆ dead.toFinset,
      removed.card = min dead.length (table.contactsIter.toFinset.card - K)
        ∧ Sheds table.inner removed (dead.foldl Rpc.forget table).inner := by
  induction dead generalizing table with
  | nil =>
    refine ⟨∅, Finset.empty_subset _, ?_, Sheds.refl _⟩
    rw [List.length_nil, Nat.zero_min, Finset.card_empty]
  | cons c dead ih =>
    obtain ⟨hc, hnodup⟩ := List.nodup_cons.mp hnodup
    have hcard := card_distinctIds h
    rw [List.foldl_cons]
    by_cases hmany : K < (distinctIds table).card
    · -- the contact goes, and one fewer is above the floor
      have hone := Sheds.removeContact h c
      have hleft : (table.removeContact c).contactsIter.toFinset.card
          = table.contactsIter.toFinset.card - 1 := by
        have hmem : c ∈ table.contactsIter.toFinset :=
          List.mem_toFinset.mpr (hheld c List.mem_cons_self)
        rw [← Finset.card_erase_of_mem hmem, ← Finset.sdiff_singleton_eq_erase]
        exact congrArg Finset.card hone.toFinset_contactsIter
      rw [Rpc.forget_of_lt hmany]
      have hrest : ∀ x ∈ dead, x ∈ (table.removeContact c).contactsIter := fun x hx =>
        hone.mem_contactsIter.mpr ⟨hheld x (List.mem_cons_of_mem _ hx), fun hmem =>
          hc (Finset.mem_singleton.mp hmem ▸ hx)⟩
      obtain ⟨removed, hsub, hremoved, hsheds⟩ := ih (h.removeContact c) hnodup hrest
      refine ⟨{c} ∪ removed, ?_, ?_, hone.trans hsheds⟩
      · rw [List.toFinset_cons, Finset.singleton_union]
        exact Finset.insert_subset_insert c hsub
      · have hnot : c ∉ removed := fun hmem => hc (List.mem_toFinset.mp (hsub hmem))
        rw [Finset.singleton_union, Finset.card_insert_of_notMem hnot, hremoved, hleft,
          List.length_cons]
        omega
    · -- the floor is reached, and nothing goes any more
      rw [Rpc.forget_of_le (not_lt.mp hmany)]
      obtain ⟨removed, hsub, hremoved, hsheds⟩ :=
        ih h hnodup fun x hx => hheld x (List.mem_cons_of_mem _ hx)
      refine ⟨removed, hsub.trans ?_, ?_, hsheds⟩
      · rw [List.toFinset_cons]
        exact Finset.subset_insert c _
      · rw [hremoved]
        omega

/-- Calls keep the table in order. -/
theorem ok_afterCalls (myId : NodeId) (calls : List CachedCloseNodes.Call) :
    ((recommended myId).afterCalls calls).inner.Ok := by
  rw [(CachedCloseNodes.tracks_afterCalls _ calls).inner]
  exact Table.ok_run myId _

/-- **A liveness round removes dead contacts down to the floor, and no
others.** Whatever the table has been through, whichever addresses answer and
with which id, and in whatever order the dead are gone through: as many of them
are removed as there are contacts above `K`, or all of them if there are no
more. They leave both layers, and a contact that answers with its own id stays
where it is.

That the removal of a dead contact always succeeds is because the contact was
yielded by the table itself, in the same address under which both layers hold
it. -/
theorem checkLiveness_exact (myId : NodeId) (calls : List CachedCloseNodes.Call)
    (ping : SocketAddr → Option NodeId) (order : Order) :
    let table := (recommended myId).afterCalls calls
    let held := table.contactsIter.toFinset
    let dead := held.filter fun c => ping c.address ≠ some c.id
    let after := checkLiveness (answersOf ping table.contactsIter) order table
    ∃ removed ⊆ dead, removed.card = min dead.card (held.card - K)
      ∧ Sheds table.inner removed after.inner
      ∧ after.contactsIter.toFinset = held \ removed
      ∧ ∀ c, ping c.address = some c.id →
        (c ∈ table.inner.siblings.toList → c ∈ after.inner.siblings.toList)
        ∧ ∀ i, c ∈ (table.inner.fallback.contacts i).toList →
          c ∈ (after.inner.fallback.contacts i).toList := by
  intro table held dead after
  set gone := deadContacts (answersOf ping table.contactsIter) table.contactsIter
  have hperm := order.2 gone
  have hdead : (order.1 gone).toFinset = dead := by
    ext x
    rw [List.mem_toFinset, hperm.mem_iff, mem_deadContacts_answersOf, Finset.mem_filter,
      List.mem_toFinset]
  have hnodup := hperm.nodup_iff.mpr (nodup_deadContacts _ _)
  obtain ⟨removed, hsub, hcard, hsheds⟩ := exists_sheds (ok_afterCalls myId calls) hnodup
    fun c hc => (mem_deadContacts_answersOf.mp (hperm.mem_iff.mp hc)).1
  have hsheds : Sheds table.inner removed after.inner := hsheds
  rw [hdead] at hsub
  rw [← List.toFinset_card_of_nodup hnodup, hdead] at hcard
  refine ⟨removed, hsub, hcard, hsheds, hsheds.toFinset_contactsIter, fun c hlive => ?_⟩
  have hstays : decide (c ∉ removed) = true :=
    decide_eq_true fun hc => (Finset.mem_filter.mp (hsub hc)).2 hlive
  refine ⟨fun hc => ?_, fun i hc => ?_⟩
  · rw [hsheds.siblings]
    exact List.mem_filter.mpr ⟨hc, hstays⟩
  · exact (hsheds.bucket i).mem_iff.mpr (List.mem_filter.mpr ⟨hc, hstays⟩)

end RecommendedCloseNodes

end Kademlia
