import Kademlia.StaticBucket

/-!
# The sibling list over the bucket table

The contacts nearest to our own id are kept in a small sorted list, layered
over a table that answers for the rest of the id space. Every offer and every
removal goes to both, and a query merges both answers.

The list is generic in the table underneath, and so is what is said about it
first: a query selects the nearest of both layers where the table selects the
nearest of its own (`closeNodes_exact`), and as long as nothing is removed the
siblings are the nearest ids that were ever offered, whatever the table does
(`siblings_offered`).

Over the bucket table the two layers hold copies of the same contacts, and the
question is whether they stay consistent. `Ok` says what they agree on, every
write keeps it, and `represents_run` reads off it what a caller of the table
may rely on after any sequence of writes.
-/

namespace Kademlia

/-- The `siblingCount` contacts closest to `myId`, over a table that answers
for the rest of the id space. -/
structure SiblingList (C : Type) (siblingCount : ℕ) where
  /-- Sorted by distance to `myId`, closest first. -/
  siblings : BoundedVec Contact siblingCount
  /-- The table underneath. -/
  fallback : C
  /-- The id the list is built around. -/
  myId : NodeId

namespace SiblingList

variable {C : Type} {S : ℕ}

/-- An empty sibling list over a table. -/
def new (myId : NodeId) (fallback : C) : SiblingList C S := ⟨BoundedVec.new, fallback, myId⟩

/-- The index of the first sibling that is not nearer than a contact. -/
def partitionPoint (list : SiblingList C S) (contact : Contact) : ℕ :=
  (list.siblings.toList.takeWhile
    (fun s => xorDistanceCmp s.id contact.id list.myId == Ordering.lt)).length

variable [CloseNodes C]

/-- Merge the answer of the table with the siblings, sort by distance, drop
repeated ids, keep the first `K`. -/
def closeNodes (list : SiblingList C S) (id : NodeId) : List Contact :=
  let out := CloseNodes.closeNodes list.fallback id ++ list.siblings.toList
  (Nearest.dedupBy sameId (Nearest.sortBy (nearerTo id) out)).take K

/-- Offer a contact to the table and to the list. A known sibling is
refreshed; a new one is put in order, and from a full list the farthest
gives way to a nearer one. -/
def maybeAddContact (list : SiblingList C S) (contact : Contact) : SiblingList C S :=
  if contact.id = list.myId then list
  else
    let fallback := CloseNodes.maybeAddContact list.fallback contact
    if knows list.siblings contact then
      { list with siblings := refresh list.siblings contact, fallback := fallback }
    else
      let pos := list.partitionPoint contact
      if list.siblings.isFull then
        if pos = list.siblings.toList.length then { list with fallback := fallback }
        else { list with siblings := list.siblings.pop.insert pos contact, fallback := fallback }
      else { list with siblings := list.siblings.insert pos contact, fallback := fallback }

/-- The siblings, then whatever the table yields. -/
def contactsIter (list : SiblingList C S) : List Contact :=
  list.siblings.toList ++ CloseNodes.contactsIter list.fallback

/-- Drop a contact from the list, if it is held at exactly that address, and
from the table. -/
def removeContact (list : SiblingList C S) (contact : Contact) : SiblingList C S :=
  { list with
    siblings := match list.siblings.toList.idxOf? contact with
      | some i => list.siblings.remove i
      | none => list.siblings
    fallback := CloseNodes.removeContact list.fallback contact }

instance : CloseNodes (SiblingList C S) where
  closeNodes := closeNodes
  maybeAddContact := maybeAddContact
  removeContact := removeContact
  contactsIter := contactsIter

/-- A query answers with at most `K` contacts. -/
theorem length_closeNodes_le (list : SiblingList C S) (id : NodeId) :
    (list.closeNodes id).length ≤ K := List.length_take_le _ _

/-! ## What an offer does to the siblings

The code finds the place of a new contact by binary search and then branches on
whether the list is full and whether the place is at its end. All of these
branches come to one thing, `inOrder` cut to the capacity, and only this is
used afterwards. -/

/-- The siblings an offer leaves where the contact is not one of them: the
contact is put in order, and what exceeds the capacity is dropped. -/
def inOrder (myId : NodeId) (contact : Contact) (siblings : List Contact) : List Contact :=
  siblings.takeWhile (fun s => distance s.id myId < distance contact.id myId)
    ++ contact :: siblings.dropWhile (fun s => distance s.id myId < distance contact.id myId)

omit [CloseNodes C] in
theorem insertIdx_partitionPoint (list : SiblingList C S) (c : Contact) :
    list.siblings.toList.insertIdx (list.partitionPoint c) c
      = inOrder list.myId c list.siblings.toList := by
  have htest : (fun s : Contact => xorDistanceCmp s.id c.id list.myId == Ordering.lt)
      = fun s => decide (distance s.id list.myId < distance c.id list.myId) := by
    funext s
    rw [xorDistanceCmp_eq, Bool.eq_iff_iff, beq_iff_eq, decide_eq_true_iff, compare_lt_iff_lt]
  unfold partitionPoint inOrder
  rw [htest]
  exact Nearest.insertIdx_length_takeWhile _ c _

omit [CloseNodes C] in
theorem length_inOrder (myId : NodeId) (c : Contact) (l : List Contact) :
    (inOrder myId c l).length = l.length + 1 := by
  unfold inOrder
  rw [List.length_append, List.length_cons, ← Nat.add_assoc, ← List.length_append,
    List.takeWhile_append_dropWhile]

omit [CloseNodes C] in
/-- A contact farther than everything goes last. -/
theorem inOrder_of_forall {myId : NodeId} {c : Contact} {l : List Contact}
    (h : ∀ s ∈ l, distance s.id myId < distance c.id myId) :
    inOrder myId c l = l ++ [c] := by
  unfold inOrder
  rw [List.takeWhile_eq_self_iff.mpr (fun s hs => decide_eq_true (h s hs)),
    List.dropWhile_eq_nil_iff.mpr (fun s hs => decide_eq_true (h s hs))]

omit [CloseNodes C] in
/-- A contact nearer than the last goes before it. -/
theorem inOrder_concat {myId : NodeId} {c last : Contact} (l : List Contact)
    (h : distance c.id myId < distance last.id myId) :
    inOrder myId c (l ++ [last]) = inOrder myId c l ++ [last] := by
  induction l with
  | nil =>
    show inOrder myId c [last] = [c, last]
    unfold inOrder
    rw [List.takeWhile_cons_of_neg (by simpa using h.le),
      List.dropWhile_cons_of_neg (by simpa using h.le)]
    rfl
  | cons a l ih =>
    unfold inOrder at ih ⊢
    rw [List.cons_append]
    by_cases ha : distance a.id myId < distance c.id myId
    · rw [List.takeWhile_cons_of_pos (by simpa using ha),
        List.dropWhile_cons_of_pos (by simpa using ha), List.cons_append, ih,
        List.takeWhile_cons_of_pos (by simpa using ha),
        List.dropWhile_cons_of_pos (by simpa using ha)]
      rfl
    · rw [List.takeWhile_cons_of_neg (by simpa using ha),
        List.dropWhile_cons_of_neg (by simpa using ha),
        List.takeWhile_cons_of_neg (by simpa using ha),
        List.dropWhile_cons_of_neg (by simpa using ha)]
      rfl

omit [CloseNodes C] in
/-- **Which of two a full list drops**: the last of it, if the contact is
nearer, and otherwise the contact itself. -/
theorem take_inOrder {myId : NodeId} {c last : Contact} {l : List Contact}
    (hsorted : (l ++ [last]).Pairwise (fun a b => distance a.id myId < distance b.id myId))
    (hc : c.id ∉ (l ++ [last]).map Contact.id) :
    (inOrder myId c (l ++ [last])).take (l.length + 1)
      = if distance c.id myId < distance last.id myId then inOrder myId c l
        else l ++ [last] := by
  by_cases hlt : distance c.id myId < distance last.id myId
  · rw [if_pos hlt, inOrder_concat l hlt, List.take_left' (length_inOrder myId c l)]
  · have hne : distance last.id myId ≠ distance c.id myId := fun he =>
      hc (List.mem_map.mpr ⟨last, List.mem_append_right _ List.mem_cons_self,
        distance_injective myId he⟩)
    have hlast := lt_of_le_of_ne (not_lt.mp hlt) hne
    rw [if_neg hlt, inOrder_of_forall (fun s hs => ?_), List.take_left' (by simp)]
    rcases List.mem_append.mp hs with hs | hs
    · exact ((List.pairwise_append.mp hsorted).2.2 s hs last List.mem_cons_self).trans hlast
    · rwa [List.mem_singleton.mp hs]

theorem maybeAddContact_of_myId (list : SiblingList C S) {c : Contact}
    (hc : c.id = list.myId) : list.maybeAddContact c = list := by
  unfold maybeAddContact
  rw [if_pos hc]

@[simp] theorem maybeAddContact_myId (list : SiblingList C S) (c : Contact) :
    (list.maybeAddContact c).myId = list.myId := by
  unfold maybeAddContact
  dsimp only
  split_ifs <;> rfl

/-- Every offer goes to the table underneath. -/
theorem maybeAddContact_fallback (list : SiblingList C S) {c : Contact}
    (hc : c.id ≠ list.myId) :
    (list.maybeAddContact c).fallback = CloseNodes.maybeAddContact list.fallback c := by
  unfold maybeAddContact
  rw [if_neg hc]
  dsimp only
  split_ifs <;> rfl

/-- A known sibling is refreshed. -/
theorem siblings_of_known (list : SiblingList C S) {c : Contact} (hc : c.id ≠ list.myId)
    (hk : c.id ∈ list.siblings.toList.map Contact.id) :
    (list.maybeAddContact c).siblings = refresh list.siblings c := by
  unfold maybeAddContact
  rw [if_neg hc]
  dsimp only
  rw [if_pos ((knows_iff _ _).mpr hk)]

/-- **A new contact is put in order and the list cut to its capacity**,
whichever branch the code takes: with room nothing is cut, at the end of a full
list the contact itself is, and before the end the last sibling is, which the
code drops before it inserts. -/
theorem siblings_of_unknown (list : SiblingList C S) {c : Contact}
    (hc : c.id ≠ list.myId) (hk : c.id ∉ list.siblings.toList.map Contact.id) :
    (list.maybeAddContact c).siblings.toList
      = (inOrder list.myId c list.siblings.toList).take S := by
  have hle := list.siblings.length_le
  have hpos : list.partitionPoint c ≤ list.siblings.toList.length :=
    (List.takeWhile_sublist _).length_le
  rw [← insertIdx_partitionPoint]
  unfold maybeAddContact
  rw [if_neg hc]
  dsimp only
  rw [if_neg (fun hkn => hk ((knows_iff _ _).mp hkn))]
  split
  · next hfull =>
    have hfull := (BoundedVec.isFull_iff _).mp hfull
    split
    · next hlast =>
      -- farther than every sibling: the insertion would be cut off again
      show list.siblings.toList = _
      rw [hlast, List.insertIdx_length_self]
      exact (List.take_left' hfull).symm
    · next hlast =>
      exact BoundedVec.toList_pop_insert hfull (by omega) c
  · next hfull =>
    have hlt : list.siblings.toList.length < S :=
      lt_of_le_of_ne hle (fun h => hfull ((BoundedVec.isFull_iff _).mpr h))
    show (list.siblings.insert _ c).toList = _
    rw [BoundedVec.toList_insert_of_lt hlt, List.take_of_length_le]
    rw [List.length_insertIdx_of_le_length hpos]
    exact hlt

omit [CloseNodes C] in
theorem mem_inOrder {myId : NodeId} {c x : Contact} {l : List Contact} :
    x ∈ inOrder myId c l ↔ x = c ∨ x ∈ l :=
  Nearest.mem_takeWhile_append_cons_dropWhile

/-- What an offer can put among the siblings: the contact, and what was there
for other ids. -/
theorem mem_siblings_maybeAddContact {list : SiblingList C S} {c x : Contact}
    (hnodup : (list.siblings.toList.map Contact.id).Nodup) (hc : c.id ≠ list.myId)
    (hx : x ∈ (list.maybeAddContact c).siblings.toList) :
    x = c ∨ (x ∈ list.siblings.toList ∧ x.id ≠ c.id) := by
  by_cases hk : c.id ∈ list.siblings.toList.map Contact.id
  · rw [siblings_of_known list hc hk] at hx
    exact (mem_refresh hnodup hk x).mp hx
  · rw [siblings_of_unknown list hc hk] at hx
    exact (mem_inOrder.mp (List.mem_of_mem_take hx)).imp id
      (fun hx => ⟨hx, fun he => hk (List.mem_map.mpr ⟨x, hx, he⟩)⟩)

/-- What a removal leaves of the siblings. -/
theorem siblings_removeContact (list : SiblingList C S) (c : Contact) :
    (list.removeContact c).siblings.toList = list.siblings.toList.erase c := by
  rw [List.erase_eq_eraseIdx]
  unfold removeContact
  dsimp only
  split
  · next hi =>
    rw [hi]
    rfl
  · next hi => rw [hi]

/-! ## What a query adds to the table's answer -/

/-- **Merging in the siblings selects from both**, whatever set the answer of
the table selects from: what the table cut off could not have come back.
Contacts of one id have to be equal, since of two that are not the merge keeps
whichever comes first. -/
theorem selects_merge {list : SiblingList C S} {t : NodeId} {T : Set Contact}
    (hfallback : Nearest.Selects (fun c => distance c.id t) K T
      (CloseNodes.closeNodes list.fallback t))
    (hone : ∀ a ∈ CloseNodes.closeNodes list.fallback t ++ list.siblings.toList,
      ∀ b ∈ CloseNodes.closeNodes list.fallback t ++ list.siblings.toList, a.id = b.id → a = b) :
    Nearest.Selects (fun c => distance c.id t) K (T ∪ {c | c ∈ list.siblings.toList})
      (list.closeNodes t) := by
  refine hfallback.union ?_
  have hset : ({c | c ∈ CloseNodes.closeNodes list.fallback t}
      ∪ {c | c ∈ list.siblings.toList} : Set Contact)
      = {c | c ∈ CloseNodes.closeNodes list.fallback t ++ list.siblings.toList} := by
    ext c
    exact List.mem_append.symm
  rw [hset]
  exact Nearest.selects_dedupBy_sortBy (nearerTo_eq t) (sameId_iff t) K
    (fun a ha b hb he => hone a ha b hb (distance_injective t he))

/-- **The siblings keep the table exact.** Over a table that answers every
query with the `K` nearest of its contacts, siblings of distinct ids that agree
with it on addresses make a list that answers every query with the `K` nearest
of both.

The table has already cut its answer to `K` when the siblings come in.
Selecting in stages is selecting at once (`Nearest.Selects.union`), so the
early cut loses nothing, and a contact that is in both layers comes out once,
since its two copies are adjacent after sorting. -/
theorem closeNodes_exact (list : SiblingList C S)
    (hfallback : ∀ t, Nearest.Selects (fun c => distance c.id t) K
      {c | c ∈ CloseNodes.contactsIter list.fallback} (CloseNodes.closeNodes list.fallback t))
    (hnodup : (list.siblings.toList.map Contact.id).Nodup)
    (hagree : ∀ a ∈ list.siblings.toList, ∀ b ∈ CloseNodes.contactsIter list.fallback,
      a.id = b.id → a.address = b.address) (t : NodeId) :
    Nearest.Selects (fun c => distance c.id t) K
        ({c | c ∈ CloseNodes.contactsIter list.fallback} ∪ {c | c ∈ list.siblings.toList})
        (list.closeNodes t)
      ∧ ((list.closeNodes t).map Contact.id).Nodup := by
  have hsame : ∀ a ∈ list.siblings.toList, ∀ b ∈ CloseNodes.closeNodes list.fallback t,
      a.id = b.id → a = b := by
    intro a ha b hb hid
    have haddress := hagree a ha b ((hfallback t).subset b hb) hid
    cases a
    cases b
    cases hid
    cases haddress
    rfl
  have hone : ∀ a ∈ CloseNodes.closeNodes list.fallback t ++ list.siblings.toList,
      ∀ b ∈ CloseNodes.closeNodes list.fallback t ++ list.siblings.toList,
        a.id = b.id → a = b := by
    intro a ha b hb hid
    rcases List.mem_append.mp ha with ha | ha <;> rcases List.mem_append.mp hb with hb | hb
    · exact List.inj_on_of_nodup_map (nodup_ids_of_selects (hfallback t)) ha hb hid
    · exact (hsame b hb a ha hid.symm).symm
    · exact hsame a ha b hb hid
    · exact List.inj_on_of_nodup_map hnodup ha hb hid
  have hsel := selects_merge (hfallback t) hone
  exact ⟨hsel, nodup_ids_of_selects hsel⟩

/-- Two contacts of the reference table, of which the far one is a sibling
and a third contact besides. -/
theorem closeNodes_exact_sample :
    ∃ (a b c : Contact) (t : NodeId) (list : SiblingList DumbBucket 2),
      list.fallback.contacts = [a, b] ∧ list.siblings.toList = [b, c]
        ∧ list.closeNodes t = [a, b, c] ∧ ((list.closeNodes t).map Contact.id).Nodup := by
  let a : Contact := ⟨List.Vector.replicate idBytes 1, .v4 (List.Vector.replicate 4 10) 8001⟩
  let b : Contact := ⟨List.Vector.replicate idBytes 2, .v4 (List.Vector.replicate 4 10) 8002⟩
  let c : Contact := ⟨List.Vector.replicate idBytes 4, .v4 (List.Vector.replicate 4 10) 8003⟩
  let list : SiblingList DumbBucket 2 :=
    ⟨⟨[b, c], by decide⟩, ⟨[a, b]⟩, List.Vector.replicate idBytes 0⟩
  have hexact := closeNodes_exact list (DumbBucket.selects_closeNodes (by decide +kernel))
    (by decide +kernel) (by decide +kernel) (List.Vector.replicate idBytes 0)
  exact ⟨a, b, c, _, list, rfl, rfl, by decide +kernel, hexact.2⟩

/-! ## The two layers together

Over a bucket table, siblings and table agree on what they hold for an id,
since each offer refreshes both. -/

section Layers

variable {B H M : ℕ} [NeZero M]

/-- **Both layers are in order and agree.** -/
structure Ok (list : SiblingList (StaticBucket B H M) S) : Prop where
  /-- The table underneath is in order. -/
  fallback : list.fallback.Ok
  /-- It is built around the same id. -/
  myId : list.fallback.myId = list.myId
  /-- The siblings are sorted by distance, and so distinct. -/
  sorted : list.siblings.toList.Pairwise
    (fun a b => distance a.id list.myId < distance b.id list.myId)
  /-- Our own id is not a sibling. -/
  ne_myId : ∀ c ∈ list.siblings.toList, c.id ≠ list.myId
  /-- An id held by both layers is held at one address. -/
  agree : ∀ a ∈ list.siblings.toList, ∀ b ∈ list.fallback.contactsIter, a.id = b.id → a = b

variable {list : SiblingList (StaticBucket B H M) S}

theorem mem_contactsIter {x : Contact} : x ∈ list.contactsIter
    ↔ x ∈ list.siblings.toList ∨ x ∈ list.fallback.contactsIter := List.mem_append

theorem ok_new (myId : NodeId) :
    (new myId (StaticBucket.new myId) : SiblingList (StaticBucket B H M) S).Ok :=
  ⟨StaticBucket.ok_new myId, rfl, List.Pairwise.nil, fun _ hc => absurd hc List.not_mem_nil,
    fun _ hc => absurd hc List.not_mem_nil⟩

theorem Ok.nodup_siblings (h : list.Ok) : (list.siblings.toList.map Contact.id).Nodup :=
  List.pairwise_map.mpr (h.sorted.imp (fun hab he => absurd hab (by rw [he]; exact lt_irrefl _)))

/-- **An id names one contact across both layers.** Within a layer ids are not
repeated, and between them it is what `agree` says. -/
theorem Ok.eq_of_id (h : list.Ok) {a b : Contact} (ha : a ∈ list.contactsIter)
    (hb : b ∈ list.contactsIter) (hid : a.id = b.id) : a = b := by
  rcases mem_contactsIter.mp ha with ha | ha <;> rcases mem_contactsIter.mp hb with hb | hb
  · exact List.inj_on_of_nodup_map h.nodup_siblings ha hb hid
  · exact h.agree a ha b hb hid
  · exact (h.agree b hb a ha hid.symm).symm
  · exact h.fallback.eq_of_id ha hb hid

theorem Ok.ne_myId_of_mem (h : list.Ok) {x : Contact} (hx : x ∈ list.contactsIter) :
    x.id ≠ list.myId := by
  rcases mem_contactsIter.mp hx with hx | hx
  · exact h.ne_myId x hx
  · obtain ⟨i, hi⟩ := StaticBucket.mem_contactsIter.mp hx
    exact h.myId ▸ h.fallback.ne_myId i x hi

/-- The distinct contacts held have distinct ids. -/
theorem Ok.nodup_dedup (h : list.Ok) : (list.contactsIter.dedup.map Contact.id).Nodup := by
  refine (List.nodup_map_iff_inj_on (List.nodup_dedup _)).mpr (fun a ha b hb hid => ?_)
  exact h.eq_of_id (List.mem_dedup.mp ha) (List.mem_dedup.mp hb) hid

theorem Ok.mem_siblings_of_maybeAddContact (h : list.Ok) {c x : Contact}
    (hc : c.id ≠ list.myId) (hx : x ∈ (list.maybeAddContact c).siblings.toList) :
    x = c ∨ (x ∈ list.siblings.toList ∧ x.id ≠ c.id) :=
  mem_siblings_maybeAddContact h.nodup_siblings hc hx

/-- An offer leaves the siblings sorted. -/
theorem Ok.sorted_maybeAddContact (h : list.Ok) {c : Contact} (hc : c.id ≠ list.myId) :
    (list.maybeAddContact c).siblings.toList.Pairwise
      (fun a b => distance a.id list.myId < distance b.id list.myId) := by
  by_cases hk : c.id ∈ list.siblings.toList.map Contact.id
  · -- a refresh changes no id
    rw [siblings_of_known list hc hk]
    have hids := h.sorted
    rw [← List.pairwise_map (f := Contact.id) (R := fun i j => distance i list.myId
      < distance j list.myId)] at hids ⊢
    rwa [map_id_refresh]
  · rw [siblings_of_unknown list hc hk]
    refine (Nearest.sorted_insert h.sorted (fun a ha he => hk ?_)).sublist
      (List.take_sublist _ _)
    exact List.mem_map.mpr ⟨a, ha, distance_injective list.myId he⟩

/-- **An offer keeps both layers in order.** It goes to both, so that an id
held by both is refreshed in both, and what either layer holds for another id
is left as it was. -/
theorem Ok.maybeAddContact (h : list.Ok) (c : Contact) : (list.maybeAddContact c).Ok := by
  by_cases hc : c.id = list.myId
  · rw [maybeAddContact_of_myId list hc]
    exact h
  · have hfb : (list.maybeAddContact c).fallback = list.fallback.maybeAddContact c :=
      maybeAddContact_fallback list hc
    refine ⟨?_, ?_, ?_, fun x hx => ?_, fun a ha b hb hid => ?_⟩
    · rw [hfb]
      exact h.fallback.maybeAddContact c
    · rw [hfb, StaticBucket.maybeAddContact_myId, h.myId, maybeAddContact_myId]
    · rw [maybeAddContact_myId]
      exact h.sorted_maybeAddContact hc
    · rw [maybeAddContact_myId]
      rcases h.mem_siblings_of_maybeAddContact hc hx with rfl | hx
      · exact hc
      · exact h.ne_myId x hx.1
    · rw [hfb, StaticBucket.mem_contactsIter_maybeAddContact h.fallback (h.myId ▸ hc)] at hb
      rcases h.mem_siblings_of_maybeAddContact hc ha with rfl | ⟨ha, hne⟩
      · exact (hb.resolve_right (fun hb => hb.2 hid.symm)).1.symm
      · rcases hb with ⟨rfl, -⟩ | ⟨hb, -⟩
        · exact absurd hid hne
        · exact h.agree a ha b hb hid

/-- **A removal keeps both layers in order.** -/
theorem Ok.removeContact (h : list.Ok) (c : Contact) : (list.removeContact c).Ok := by
  have hsub : ∀ x ∈ (list.removeContact c).siblings.toList, x ∈ list.siblings.toList := by
    intro x hx
    rw [siblings_removeContact] at hx
    exact List.mem_of_mem_erase hx
  refine ⟨h.fallback.removeContact c, ?_, ?_, fun x hx => h.ne_myId x (hsub x hx),
    fun a ha b hb hid => h.agree a (hsub a ha) b ?_ hid⟩
  · exact (StaticBucket.removeContact_myId list.fallback c).trans h.myId
  · rw [siblings_removeContact]
    exact h.sorted.sublist List.erase_sublist
  · exact ((StaticBucket.mem_contactsIter_removeContact h.fallback c b).mp hb).1

theorem Ok.apply (h : list.Ok) (op : TableOp) : (op.apply list).Ok := by
  cases op with
  | maybeAdd c => exact h.maybeAddContact c
  | remove c => exact h.removeContact c

/-- What an offer can leave in either layer: the contact, and what was held
for other ids. -/
theorem Ok.mem_contactsIter_of_maybeAddContact (h : list.Ok) {c x : Contact}
    (hc : c.id ≠ list.myId) (hx : x ∈ (list.maybeAddContact c).contactsIter) :
    x = c ∨ (x ∈ list.contactsIter ∧ x.id ≠ c.id) := by
  rcases mem_contactsIter.mp hx with hx | hx
  · exact (h.mem_siblings_of_maybeAddContact hc hx).imp id
      (fun hx => ⟨mem_contactsIter.mpr (Or.inl hx.1), hx.2⟩)
  · rw [maybeAddContact_fallback list hc] at hx
    exact ((StaticBucket.mem_contactsIter_maybeAddContact h.fallback (h.myId ▸ hc) x).mp hx).imp
      And.left (fun hx => ⟨mem_contactsIter.mpr (Or.inr hx.1), hx.2⟩)

/-- What a removal leaves in either layer: everything but the contact. -/
theorem Ok.mem_contactsIter_removeContact (h : list.Ok) (c x : Contact) :
    x ∈ (list.removeContact c).contactsIter ↔ x ∈ list.contactsIter ∧ x ≠ c := by
  rw [mem_contactsIter, mem_contactsIter, siblings_removeContact,
    (List.Nodup.of_map _ h.nodup_siblings).mem_erase_iff, or_and_right, and_comm]
  exact or_congr_right (StaticBucket.mem_contactsIter_removeContact h.fallback c x)

/-- A query answers with contacts that are held. -/
theorem Ok.closeNodes_subset (h : list.Ok) (t : NodeId) :
    list.closeNodes t ⊆ list.contactsIter := by
  intro c hc
  have hmem := Nearest.mem_sortBy.mp
    ((Nearest.dedupBy_sublist _ _).subset (List.mem_of_mem_take hc))
  rcases List.mem_append.mp hmem with hfb | hsib
  · refine mem_contactsIter.mpr (Or.inr (h.fallback.candidates_subset (t := t) ?_))
    exact Nearest.mem_sortBy.mp (List.mem_of_mem_take hfb)
  · exact mem_contactsIter.mpr (Or.inl hsib)

end Layers

/-! ## Runs

A list that a node can have is one that offers and removals lead to from an
empty one. What is true of all of them is proved for one write and carried
along the fold. -/

section Runs

variable {B H M : ℕ} [NeZero M]

/-- The list and its table after a sequence of writes, starting empty. -/
def run (myId : NodeId) (ops : List TableOp) : SiblingList (StaticBucket B H M) S :=
  ops.foldl TableOp.apply (new myId (StaticBucket.new myId))

theorem run_append (myId : NodeId) (ops : List TableOp) (op : TableOp) :
    (run myId (ops ++ [op]) : SiblingList (StaticBucket B H M) S) = op.apply (run myId ops) :=
  List.foldl_append

/-- **Every reachable list is in order.** It starts with both layers empty, and
every write keeps them in order. -/
theorem ok_run (myId : NodeId) (ops : List TableOp) :
    (run myId ops : SiblingList (StaticBucket B H M) S).Ok :=
  List.foldlRecOn ops _ (ok_new myId) fun _ h op _ => h.apply op

theorem myId_apply (list : SiblingList (StaticBucket B H M) S) (op : TableOp) :
    (op.apply list).myId = list.myId := by
  cases op with
  | maybeAdd c => exact maybeAddContact_myId list c
  | remove c => rfl

@[simp] theorem myId_run (myId : NodeId) (ops : List TableOp) :
    (run myId ops : SiblingList (StaticBucket B H M) S).myId = myId := by
  induction ops using List.reverseRecOn with
  | nil => rfl
  | append_singleton ops op ih => rw [run_append, myId_apply, ih]

/-- The address of the most recent offer of an id. -/
def lastOffer (ops : List TableOp) (id : NodeId) : Option SocketAddr :=
  ops.reverse.findSome? (fun op => match op with
    | .maybeAdd contact => if contact.id = id then some contact.address else none
    | .remove _ => none)

theorem lastOffer_append_maybeAdd (ops : List TableOp) (c : Contact) (id : NodeId) :
    lastOffer (ops ++ [.maybeAdd c]) id
      = if c.id = id then some c.address else lastOffer ops id := by
  unfold lastOffer
  rw [List.reverse_append]
  by_cases hid : c.id = id <;> simp [hid]

theorem lastOffer_append_remove (ops : List TableOp) (c : Contact) :
    lastOffer (ops ++ [.remove c]) = lastOffer ops := by
  funext id
  unfold lastOffer
  rw [List.reverse_append]
  simp

/-- **Every contact held is as it was offered last.** An offer puts the contact
in place of what either layer held for its id, so an old address survives in
neither; a removal changes no address, and our own id is never held. -/
theorem lastOffer_of_mem_run (myId : NodeId) (ops : List TableOp) {x : Contact}
    (hx : x ∈ (run myId ops : SiblingList (StaticBucket B H M) S).contactsIter) :
    lastOffer ops x.id = some x.address := by
  induction ops using List.reverseRecOn generalizing x with
  | nil =>
    rcases mem_contactsIter.mp hx with hx | hx
    · exact absurd hx List.not_mem_nil
    · obtain ⟨i, hi⟩ := StaticBucket.mem_contactsIter.mp hx
      exact absurd hi List.not_mem_nil
  | append_singleton ops op ih =>
    rw [run_append] at hx
    have hok := ok_run (S := S) (B := B) (H := H) (M := M) myId ops
    cases op with
    | maybeAdd c =>
      rw [lastOffer_append_maybeAdd]
      by_cases hc : c.id = myId
      · -- our own id is ignored, and nothing held has it
        have hsame := maybeAddContact_of_myId (run myId ops : SiblingList (StaticBucket B H M) S)
          (hc.trans (myId_run myId ops).symm)
        have hold : x ∈ (run myId ops : SiblingList (StaticBucket B H M) S).contactsIter :=
          hsame ▸ hx
        have hne := hok.ne_myId_of_mem hold
        rw [myId_run] at hne
        rw [if_neg (fun he => hne (he.symm.trans hc))]
        exact ih hold
      · rcases hok.mem_contactsIter_of_maybeAddContact
          (fun he => hc (he.trans (myId_run myId ops))) hx with rfl | ⟨hold, hne⟩
        · rw [if_pos rfl]
        · rw [if_neg (Ne.symm hne)]
          exact ih hold
    | remove c =>
      rw [lastOffer_append_remove]
      exact ih ((hok.mem_contactsIter_removeContact c x).mp hx).1

/-- **The representation of a routing table**, given the writes to it. -/
structure Represents (myId : NodeId) (ops : List TableOp)
    (list : SiblingList (StaticBucket B H M) S) : Prop where
  /-- A contact sits in the bucket of its id. -/
  placed : ∀ i, ∀ c ∈ (list.fallback.contacts i).toList, list.fallback.bucketIndex c.id = i
  /-- The buckets together hold an id at most once. -/
  nodup_buckets : (list.fallback.contactsIter.map Contact.id).Nodup
  /-- So do the siblings. -/
  nodup_siblings : (list.siblings.toList.map Contact.id).Nodup
  /-- Our own id is held nowhere. -/
  ne_myId : ∀ c ∈ list.contactsIter, c.id ≠ myId
  /-- No bucket holds too many. -/
  length_bucket : ∀ i, (list.fallback.contacts i).toList.length ≤ B
  /-- Nor do the siblings. -/
  length_siblings : list.siblings.toList.length ≤ S
  /-- The siblings are in order of distance. -/
  sorted : list.siblings.toList.Pairwise (fun a b => distance a.id myId < distance b.id myId)
  /-- Whatever is held is at the address it was offered with last. -/
  address : ∀ c ∈ list.contactsIter, lastOffer ops c.id = some c.address
  /-- So the layers agree on addresses. -/
  agree : ∀ a ∈ list.siblings.toList, ∀ b ∈ list.fallback.contactsIter, a.id = b.id →
    a.address = b.address
  /-- A contact that either walk or query yields can be removed by its id: no entry of
  the id is left, and every other one is as it was. -/
  removal : ∀ c, (c ∈ list.contactsIter ∨ ∃ t, c ∈ list.closeNodes t) →
    (∀ x ∈ (list.removeContact c).contactsIter, x.id ≠ c.id)
      ∧ (list.removeContact c).siblings.toList = list.siblings.toList.filter (fun x => x.id ≠ c.id)
      ∧ ∀ i, ((list.removeContact c).fallback.contacts i).toList.Perm
        ((list.fallback.contacts i).toList.filter (fun x => x.id ≠ c.id))

/-- What is left of distinct contacts without one is what is left without its
id. -/
theorem erase_eq_filter_id {l : List Contact} (hl : (l.map Contact.id).Nodup) {c : Contact}
    (hc : ∀ x ∈ l, x.id = c.id → x = c) : l.erase c = l.filter (fun x => x.id ≠ c.id) := by
  rw [(List.Nodup.of_map _ hl).erase_eq_filter]
  refine List.filter_congr fun x hx => ?_
  by_cases he : x = c
  · simp [he]
  · have hid : x.id ≠ c.id := fun hid => he (hc x hx hid)
    simp [he, hid]

/-- **Every reachable routing table is represented as it should be.** After any
sequence of offers and removals, for any number and size of buckets and any
number of siblings: a contact is in the bucket of its id and nowhere else among
the buckets, neither layer repeats an id or holds our own, no capacity is
exceeded, the siblings are in order of distance, and whatever is held for an id
is at the address the id was last offered with, in both layers alike.

The last clause is about removals. The program removes a contact only if it is
held at exactly the address given, so that a stale contact removes nothing. A
contact that the table itself has yielded is never stale, since an id names one
contact across both layers, and removing it takes the id out of both layers and
leaves every other entry. -/
theorem represents_run (myId : NodeId) (ops : List TableOp) :
    Represents myId ops (run myId ops : SiblingList (StaticBucket B H M) S) := by
  have hok : (run myId ops : SiblingList (StaticBucket B H M) S).Ok := ok_run myId ops
  have hsorted := hok.sorted
  rw [myId_run] at hsorted
  refine ⟨hok.fallback.placed, hok.fallback.nodup_contactsIter, hok.nodup_siblings,
    fun c hc => ?_, fun i => BoundedVec.length_le _, BoundedVec.length_le _, hsorted,
    fun c hc => lastOffer_of_mem_run myId ops hc,
    fun a ha b hb hid => congrArg Contact.address (hok.agree a ha b hb hid), fun c hc => ?_⟩
  · have hne := hok.ne_myId_of_mem hc
    rwa [myId_run] at hne
  · have hheld : c ∈ (run myId ops : SiblingList (StaticBucket B H M) S).contactsIter :=
      hc.elim id fun ⟨t, ht⟩ => hok.closeNodes_subset t ht
    -- an entry of the id is the contact, in whichever layer
    have honly : ∀ x ∈ (run myId ops : SiblingList (StaticBucket B H M) S).contactsIter,
        x.id = c.id → x = c := fun x hx hid => hok.eq_of_id hx hheld hid
    refine ⟨fun x hx hid => ?_, ?_, fun i => ?_⟩
    · obtain ⟨hx, hne⟩ := (hok.mem_contactsIter_removeContact c x).mp hx
      exact hne (honly x hx hid)
    · rw [siblings_removeContact]
      exact erase_eq_filter_id hok.nodup_siblings fun x hx =>
        honly x (mem_contactsIter.mpr (Or.inl hx))
    · rw [← erase_eq_filter_id (hok.fallback.nodup i) fun x hx => honly x
        (mem_contactsIter.mpr (Or.inr (StaticBucket.mem_contactsIter.mpr ⟨i, hx⟩)))]
      exact StaticBucket.removeContact_contacts hok.fallback c i

/-- Two contacts in two buckets, of which the nearer one has moved. -/
theorem represents_run_sample :
    ∃ a b : Contact,
      (run (List.Vector.replicate idBytes 0) [.maybeAdd ⟨a.id, b.address⟩, .maybeAdd b, .maybeAdd a]
          : SiblingList (StaticBucket 2 0 8) 1).contactsIter = [a, b, a]
        ∧ lastOffer [.maybeAdd ⟨a.id, b.address⟩, .maybeAdd b, .maybeAdd a] a.id
          = some a.address := by
  let a : Contact := ⟨List.Vector.replicate idBytes 1, .v4 (List.Vector.replicate 4 10) 8001⟩
  let b : Contact := ⟨List.Vector.replicate idBytes 128, .v4 (List.Vector.replicate 4 10) 8002⟩
  have hiter : (run (List.Vector.replicate idBytes 0)
      [.maybeAdd ⟨a.id, b.address⟩, .maybeAdd b, .maybeAdd a]
        : SiblingList (StaticBucket 2 0 8) 1).contactsIter = [a, b, a] := by decide +kernel
  have hrep : Represents (List.Vector.replicate idBytes 0)
      [.maybeAdd ⟨a.id, b.address⟩, .maybeAdd b, .maybeAdd a]
      (run _ _ : SiblingList (StaticBucket 2 0 8) 1) := represents_run _ _
  exact ⟨a, b, hiter, hrep.address a (hiter ▸ List.mem_cons_self)⟩

end Runs

/-! ## Offers alone

Whatever the table underneath does, as long as nothing is removed the
siblings are a function of what was offered. -/

section Offers

/-- The list after a sequence of offers, starting without siblings over any
table. -/
def offered (myId : NodeId) (fallback : C) (offers : List Contact) : SiblingList C S :=
  offers.foldl maybeAddContact (new myId fallback)

theorem offered_concat (myId : NodeId) (fallback : C) (offers : List Contact) (c : Contact) :
    (offered myId fallback (offers ++ [c]) : SiblingList C S)
      = (offered myId fallback offers).maybeAddContact c := List.foldl_concat ..

@[simp] theorem myId_offered (myId : NodeId) (fallback : C) (offers : List Contact) :
    (offered myId fallback offers : SiblingList C S).myId = myId := by
  induction offers using List.reverseRecOn with
  | nil => rfl
  | append_singleton offers c ih => rw [offered_concat, maybeAddContact_myId, ih]

/-- The ids that were offered, our own apart. -/
def offeredIds (myId : NodeId) (offers : List Contact) : Set NodeId :=
  {id | id ≠ myId ∧ id ∈ offers.map Contact.id}

theorem offeredIds_concat_of_ne {myId : NodeId} {c : Contact} (hc : c.id ≠ myId)
    (offers : List Contact) :
    offeredIds myId (offers ++ [c]) = offeredIds myId offers ∪ {c.id} := by
  ext id
  simp only [offeredIds, List.map_append, List.map_singleton, List.mem_append,
    List.mem_singleton, Set.mem_ofPred_eq, Set.mem_union, Set.mem_singleton_iff]
  constructor
  · rintro ⟨hne, hid | hid⟩
    · exact Or.inl ⟨hne, hid⟩
    · exact Or.inr hid
  · rintro (⟨hne, hid⟩ | rfl)
    · exact ⟨hne, Or.inl hid⟩
    · exact ⟨hc, Or.inr rfl⟩

theorem offeredIds_concat_of_eq {myId : NodeId} {c : Contact} (hc : c.id = myId)
    (offers : List Contact) : offeredIds myId (offers ++ [c]) = offeredIds myId offers := by
  ext id
  simp only [offeredIds, List.map_append, List.map_singleton, List.mem_append,
    List.mem_singleton, Set.mem_ofPred_eq]
  refine and_congr_right fun hne => or_iff_left fun hid => hne (hid.trans hc)

omit [CloseNodes C] in
/-- Putting a contact in order puts its id in order. -/
theorem map_id_inOrder (myId : NodeId) (c : Contact) (l : List Contact) :
    (inOrder myId c l).map Contact.id
      = (l.map Contact.id).takeWhile (fun i => distance i myId < distance c.id myId)
        ++ c.id ::
          (l.map Contact.id).dropWhile (fun i => distance i myId < distance c.id myId) := by
  rw [inOrder, List.map_append, List.map_cons, List.takeWhile_map, List.dropWhile_map]
  rfl

/-- **One offer more**: the siblings are again the nearest of what was offered.
A known id changes nothing, and for a new one it is the insertion into a
selection (`Nearest.Selects.insert`). -/
theorem selects_maybeAddContact (list : SiblingList C S) {offers : List Contact}
    (h : Nearest.Selects (fun i => distance i list.myId) S (offeredIds list.myId offers)
      (list.siblings.toList.map Contact.id)) (c : Contact) :
    Nearest.Selects (fun i => distance i list.myId) S (offeredIds list.myId (offers ++ [c]))
      ((list.maybeAddContact c).siblings.toList.map Contact.id) := by
  by_cases hc : c.id = list.myId
  · rwa [maybeAddContact_of_myId list hc, offeredIds_concat_of_eq hc]
  · rw [offeredIds_concat_of_ne hc]
    by_cases hk : c.id ∈ list.siblings.toList.map Contact.id
    · -- a known id was offered before
      rw [siblings_of_known list hc hk, map_id_refresh, Set.union_singleton,
        Set.insert_eq_of_mem (h.subset c.id hk)]
      exact h
    · rw [siblings_of_unknown list hc hk, List.map_take, map_id_inOrder]
      exact h.insert fun i hi he => hk (distance_injective list.myId he ▸ hi)

/-- The siblings are the nearest ids offered. -/
theorem selects_offered (myId : NodeId) (fallback : C) (offers : List Contact) :
    Nearest.Selects (fun i => distance i myId) S (offeredIds myId offers)
      ((offered myId fallback offers : SiblingList C S).siblings.toList.map Contact.id) := by
  induction offers using List.reverseRecOn with
  | nil =>
    exact ⟨List.Pairwise.nil, fun _ hi => absurd hi List.not_mem_nil, Nat.zero_le S,
      fun _ hi => absurd hi.2 List.not_mem_nil⟩
  | append_singleton offers c ih =>
    have hstep := selects_maybeAddContact (offered myId fallback offers)
      (by rw [myId_offered]; exact ih) c
    rwa [myId_offered, ← offered_concat] at hstep

/-- Every sibling is at the address it was offered with last. -/
theorem lastOffer_of_mem_offered (myId : NodeId) (fallback : C) (offers : List Contact)
    {x : Contact} (hx : x ∈ (offered myId fallback offers : SiblingList C S).siblings.toList) :
    lastOffer (offers.map .maybeAdd) x.id = some x.address := by
  induction offers using List.reverseRecOn with
  | nil => exact absurd hx List.not_mem_nil
  | append_singleton offers c ih =>
    have hne : x.id ≠ myId :=
      ((selects_offered myId fallback (offers ++ [c])).subset x.id
        (List.mem_map.mpr ⟨x, hx, rfl⟩)).1
    rw [List.map_append, List.map_singleton, lastOffer_append_maybeAdd]
    rw [offered_concat] at hx
    by_cases hc : c.id = myId
    · rw [maybeAddContact_of_myId _ (hc.trans (myId_offered ..).symm)] at hx
      rw [if_neg fun he => hne (he.symm.trans hc)]
      exact ih hx
    · rcases mem_siblings_maybeAddContact (selects_offered myId fallback offers).nodup
        (fun he => hc (he.trans (myId_offered ..))) hx with rfl | ⟨hold, hid⟩
      · rw [if_pos rfl]
      · rw [if_neg (Ne.symm hid)]
        exact ih hold

/-- **The siblings after any offers, over any table**: the nearest ids that
were offered, nearest first, each at the address of its last offer. The ids do
not depend on the order of the offers nor on the table, and an id that was
offered and is not among them never is again.

All but the addresses follows from the first clause. The nearest of a set
depend on the set alone, and with more offers the set only grows, so whoever
has as many nearer ids before it keeps them. The addresses depend on the order,
as they should. -/
theorem siblings_offered {C' : Type} [CloseNodes C'] (myId : NodeId) (fallback : C)
    (offers : List Contact) :
    Nearest.Selects (fun i => distance i myId) S (offeredIds myId offers)
        ((offered myId fallback offers : SiblingList C S).siblings.toList.map Contact.id)
      ∧ (∀ c ∈ (offered myId fallback offers : SiblingList C S).siblings.toList,
          lastOffer (offers.map .maybeAdd) c.id = some c.address)
      ∧ (∀ (fallback' : C') (offers' : List Contact),
          (∀ id, id ∈ offers.map Contact.id ↔ id ∈ offers'.map Contact.id) →
            (offered myId fallback offers : SiblingList C S).siblings.toList.map Contact.id
              = (offered myId fallback' offers' : SiblingList C' S).siblings.toList.map Contact.id)
      ∧ ∀ (more : List Contact), ∀ id ∈ offers.map Contact.id,
          id ∉ (offered myId fallback offers : SiblingList C S).siblings.toList.map Contact.id →
            id ∉ (offered myId fallback (offers ++ more)
              : SiblingList C S).siblings.toList.map Contact.id := by
  have hsel := selects_offered (S := S) myId fallback offers
  refine ⟨hsel, fun c hc => lastOffer_of_mem_offered myId fallback offers hc,
    fun fallback' offers' hset => ?_, fun more id hid hnot hlater => ?_⟩
  · have hids : offeredIds myId offers = offeredIds myId offers' :=
      Set.ext fun id => and_congr_right fun _ => hset id
    exact hsel.unique (hids ▸ selects_offered myId fallback' offers')
  · -- it was beyond a full list, all of which was offered before
    have hsel' := selects_offered (S := S) myId fallback (offers ++ more)
    obtain ⟨hfull, hlt⟩ := (hsel.least id ⟨(hsel'.subset id hlater).1, hid⟩).resolve_left hnot
    refine lt_irrefl _ (hsel'.lt_of_le_length hsel.nodup (fun i hi => ⟨?_, hlt i hi⟩) hfull.ge
      hlater)
    exact (hsel.subset i hi).imp_right fun hi => by
      rw [List.map_append]
      exact List.mem_append_left _ hi

end Offers

end SiblingList

end Kademlia
