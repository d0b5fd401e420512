import Kademlia.Maintenance

/-!
# Tables that have heard of every node

A routing table holds a part of the network: the `K` nearest to its own id, and
of every other range of ids up to `K`. This module is about tables that have been
offered every node of the network, and nobody else. Such a table is at rest: an
offer of a node changes nothing (`Converged.maybeAddContact_eq`), so all that
nodes hear from each other leaves every table as it is.

What matters of such a table is what it answers. A lookup asks the nearest it has
heard of until all of those were asked, and finds the nearest there are if every
answer leads on (`Nearest.Leads`). A table cannot always give such an answer: a
query stops widening at `K` candidates, and can leave out contacts nearer to the
target than our own id (`Table.closeNodes_misses_nearest`). It does if the
network is balanced around the target (`Balanced`): where a node's branch and the
target's part, there are `K` nodes on the target's side, or no more than `K`
others on the node's own, which are then all siblings.
-/

namespace Kademlia

/-! ## Offers that change nothing

An offer of a contact that is held refreshes it in place, and one that finds
its bucket full is turned away. Either way the table is as it was, if the
contact is held as it is offered. -/

/-- Refreshing an entry with what it is changes nothing. -/
theorem refresh_eq_self {n : ℕ} {entries : BoundedVec Contact n} {contact : Contact}
    (h : ∀ x ∈ entries.toList, x.id = contact.id → x = contact) :
    refresh entries contact = entries := by
  have hlist : (refresh entries contact).toList = entries.toList :=
    BoundedVec.modifyFirstIn_eq_self fun x hx hid => by rw [h x hx (beq_iff_eq.mp hid)]
  obtain ⟨l, hl⟩ := entries
  unfold refresh BoundedVec.modifyFirst at hlist ⊢
  congr

namespace StaticBucket

variable {B H M : ℕ} [NeZero M]

omit [NeZero M] in
theorem setBucket_self (table : StaticBucket B H M) (i : Fin M) :
    table.setBucket i (table.contacts i) = table := by
  unfold setBucket
  rw [Function.update_eq_self]

/-- An offer of a contact held, or of one that its full bucket does not know,
changes nothing. -/
theorem maybeAddContact_eq_self {table : StaticBucket B H M} (h : table.Ok) {c : Contact}
    (hc : c ∈ table.contactsIter ∨ (c.id ∉ table.contactsIter.map Contact.id
      ∧ (table.contacts (table.bucketIndex c.id)).toList.length = B)) :
    table.maybeAddContact c = table := by
  unfold maybeAddContact
  split
  · rfl
  · dsimp only
    rcases hc with hc | ⟨hnew, hfull⟩
    · have hk : c.id ∈ (table.contacts (table.bucketIndex c.id)).toList.map Contact.id :=
        (h.mem_ids_iff c.id).mp (List.mem_map.mpr ⟨c, hc, rfl⟩)
      rw [if_pos ((knows_iff _ _).mpr hk), refresh_eq_self fun x hx hid =>
        h.eq_of_id (mem_contactsIter.mpr ⟨_, hx⟩) hc hid, setBucket_self]
    · rw [h.mem_ids_iff] at hnew
      rw [if_neg fun hk => hnew ((knows_iff _ _).mp hk), BoundedVec.push_of_full hfull,
        setBucket_self]

/-- An offer takes nothing out of a bucket. -/
theorem length_contacts_maybeAddContact (table : StaticBucket B H M) (c : Contact) (i : Fin M) :
    (table.contacts i).toList.length ≤ ((table.maybeAddContact c).contacts i).toList.length := by
  by_cases hi : i = table.bucketIndex c.id
  · subst hi
    unfold maybeAddContact
    split
    · exact le_rfl
    · dsimp only
      split
      · rw [setBucket_contacts_self]
        exact (BoundedVec.length_modifyFirstIn ..).ge
      · rw [setBucket_contacts_self]
        unfold BoundedVec.push
        split
        · rw [List.length_append]
          exact Nat.le_add_right _ _
        · exact le_rfl
  · rw [maybeAddContact_contacts_ne _ hi]

end StaticBucket

/-! ## Convergence

What a table holds depends on the order of offers: of a bucket's range, those
that came first. The siblings do not, once every node was offered, and neither
does whether a bucket is full. A converged table is told by these. -/

namespace Table

/-- **A table that has heard of `nodes`, and of nobody else.** -/
structure Converged (nodes : Set Contact) (table : Table) : Prop where
  /-- The table is in order. -/
  ok : table.Ok
  /-- The siblings are the `K` nodes nearest to our own id. -/
  siblings : Nearest.Selects (fun c => distance c.id table.myId) K
    {c ∈ nodes | c.id ≠ table.myId} table.siblings.toList
  /-- Only nodes are in the buckets. -/
  subset : ∀ c ∈ table.fallback.contactsIter, c ∈ nodes
  /-- A node is in its bucket, or the bucket is full. -/
  placed : ∀ c ∈ nodes, c.id ≠ table.myId → c ∈ table.fallback.contactsIter
    ∨ (table.fallback.contacts (table.fallback.bucketIndex c.id)).toList.length = K

variable {nodes : Set Contact} {table : Table}

/-- Only nodes are held. -/
theorem Converged.mem_of_held (h : table.Converged nodes) {c : Contact}
    (hc : c ∈ table.contactsIter) : c ∈ nodes := by
  rcases SiblingList.mem_contactsIter.mp hc with hc | hc
  · exact (h.siblings.subset c hc).1
  · exact h.subset c hc

/-- **A converged table is at rest**: an offer of a node changes nothing. As a
sibling it is held already or is farther than all of `K`; in its bucket it is
held or there is no room. -/
theorem Converged.maybeAddContact_eq (h : table.Converged nodes)
    (hids : Set.InjOn Contact.id nodes) {c : Contact} (hc : c ∈ nodes) :
    table.maybeAddContact c = table := by
  by_cases hme : c.id = table.myId
  · exact SiblingList.maybeAddContact_of_myId table hme
  have hfallback : CloseNodes.maybeAddContact table.fallback c = table.fallback := by
    refine StaticBucket.maybeAddContact_eq_self h.ok.fallback ?_
    by_cases hheld : c ∈ table.fallback.contactsIter
    · exact Or.inl hheld
    · refine Or.inr ⟨fun hid => hheld ?_, (h.placed c hc hme).resolve_left hheld⟩
      obtain ⟨x, hx, hxc⟩ := List.mem_map.mp hid
      exact hids (h.subset x hx) hc hxc ▸ hx
  unfold SiblingList.maybeAddContact
  rw [if_neg hme]
  dsimp only
  rw [hfallback]
  split
  · rw [refresh_eq_self fun x hx hid => hids (h.siblings.subset x hx).1 hc hid]
  · next hk =>
    -- not a sibling, so beyond a full list of them
    have hnot : c ∉ table.siblings.toList := fun hs =>
      hk ((knows_iff _ _).mpr (List.mem_map.mpr ⟨c, hs, rfl⟩))
    obtain ⟨hfull, hbeyond⟩ := (h.siblings.least c ⟨hc, hme⟩).resolve_left hnot
    have hpos : table.partitionPoint c = table.siblings.toList.length := by
      unfold SiblingList.partitionPoint
      rw [List.takeWhile_eq_self_iff.mpr fun s hs => ?_]
      rw [xorDistanceCmp_eq, beq_iff_eq, compare_lt_iff_lt]
      exact hbeyond s hs
    rw [if_pos ((BoundedVec.isFull_iff _).mpr hfull), if_pos hpos]

/-- A table that has heard of nobody. -/
theorem converged_nil (myId : NodeId) : (run myId []).Converged ∅ := by
  refine ⟨ok_run myId [], ⟨List.Pairwise.nil, fun _ hc => absurd hc List.not_mem_nil,
    Nat.zero_le K, fun _ hc => absurd hc.1 (Set.notMem_empty _)⟩, fun c hc => ?_,
    fun _ hc => absurd hc (Set.notMem_empty _)⟩
  obtain ⟨i, hi⟩ := StaticBucket.mem_contactsIter.mp hc
  exact absurd hi List.not_mem_nil

/-- The buckets after an offer of a node not heard of before. -/
theorem Converged.placed_maybeAddContact (h : table.Converged nodes) {c : Contact}
    (hc : c.id ≠ table.myId) (hnew : ∀ x ∈ nodes, x.id ≠ c.id) {x : Contact}
    (hx : x ∈ insert c nodes) (hxme : x.id ≠ table.myId) :
    x ∈ (table.fallback.maybeAddContact c).contactsIter
      ∨ ((table.fallback.maybeAddContact c).contacts
          (table.fallback.bucketIndex x.id)).toList.length = K := by
  have hmem := StaticBucket.mem_contactsIter_maybeAddContact h.ok.fallback (h.ok.myId ▸ hc)
  have hstill : ∀ i, (table.fallback.contacts i).toList.length = K →
      ((table.fallback.maybeAddContact c).contacts i).toList.length = K := fun i hi =>
    le_antisymm (BoundedVec.length_le _)
      (hi.ge.trans (StaticBucket.length_contacts_maybeAddContact table.fallback c i))
  rcases hx with rfl | hx
  · by_cases hadmits : table.fallback.Admits x
    · exact Or.inl ((hmem x).mpr (Or.inl ⟨rfl, hadmits⟩))
    · refine Or.inr (hstill _ (le_antisymm (BoundedVec.length_le _) (not_lt.mp fun hroom => ?_)))
      exact hadmits (Or.inr hroom)
  · rcases h.placed x hx hxme with hin | hfull
    · exact Or.inl ((hmem x).mpr (Or.inr ⟨hin, hnew x hx⟩))
    · exact Or.inr (hstill _ hfull)

/-- **One more node heard of.** The siblings stay the nearest, since one offer
to a list of the nearest leaves the nearest of one more. In the buckets, the
node is taken or its bucket is full. -/
theorem Converged.maybeAddContact (h : table.Converged nodes) {c : Contact}
    (hids : Set.InjOn Contact.id (insert c nodes)) :
    Converged (insert c nodes) (table.maybeAddContact c) := by
  by_cases hc : c ∈ nodes
  · rw [Set.insert_eq_of_mem hc] at hids ⊢
    rwa [h.maybeAddContact_eq hids hc]
  have hnew : ∀ x ∈ nodes, x.id ≠ c.id := fun x hx hid =>
    hc (hids (Set.mem_insert_of_mem c hx) (Set.mem_insert c nodes) hid ▸ hx)
  by_cases hme : c.id = table.myId
  · -- our own id is not a contact
    rw [SiblingList.maybeAddContact_of_myId table hme]
    have hset : {x ∈ insert c nodes | x.id ≠ table.myId} = {x ∈ nodes | x.id ≠ table.myId} := by
      ext x
      refine ⟨fun hx => ⟨hx.1.resolve_left ?_, hx.2⟩, fun hx => ⟨Or.inr hx.1, hx.2⟩⟩
      rintro rfl
      exact hx.2 hme
    refine ⟨h.ok, hset ▸ h.siblings, fun x hx => Or.inr (h.subset x hx), fun x hx hxme => ?_⟩
    refine h.placed x (hx.resolve_left ?_) hxme
    rintro rfl
    exact hxme hme
  have hfallback : (table.maybeAddContact c).fallback = table.fallback.maybeAddContact c :=
    SiblingList.maybeAddContact_fallback table hme
  refine ⟨h.ok.maybeAddContact c, ?_, fun x hx => ?_, fun x hx hxme => ?_⟩
  · have hins := h.siblings.insert (c := c) (fun a ha hd =>
      hnew a (h.siblings.subset a ha).1 (distance_injective table.myId hd))
    have hk : c.id ∉ table.siblings.toList.map Contact.id := fun hk => by
      obtain ⟨x, hx, hid⟩ := List.mem_map.mp hk
      exact hnew x (h.siblings.subset x hx).1 hid
    have hsib := SiblingList.siblings_of_unknown table hme hk
    unfold SiblingList.inOrder at hsib
    rw [← hsib] at hins
    rw [SiblingList.maybeAddContact_myId]
    refine Eq.subst (motive := fun S => Nearest.Selects _ K S _) ?_ hins
    ext x
    constructor
    · rintro (hx | rfl)
      · exact ⟨Or.inr hx.1, hx.2⟩
      · exact ⟨Or.inl rfl, hme⟩
    · rintro ⟨rfl | hx, hxme⟩
      · exact Or.inr rfl
      · exact Or.inl ⟨hx, hxme⟩
  · rw [hfallback] at hx
    rcases (StaticBucket.mem_contactsIter_maybeAddContact h.ok.fallback (h.ok.myId ▸ hme) x).mp hx
      with ⟨rfl, -⟩ | ⟨hx, -⟩
    · exact Or.inl rfl
    · exact Or.inr (h.subset x hx)
  · rw [SiblingList.maybeAddContact_myId] at hxme
    rw [hfallback, StaticBucket.bucketIndex_congr (StaticBucket.maybeAddContact_myId _ c)]
    exact h.placed_maybeAddContact hme hnew hx hxme

/-- **A table that was offered nodes has heard of them**, in whatever order and
however often. By induction on the offers: each is of a node not heard of
before, or changes nothing. -/
theorem converged_run (myId : NodeId) {contacts : List Contact}
    (hids : Set.InjOn Contact.id {c | c ∈ contacts}) :
    (run myId (contacts.map TableOp.maybeAdd)).Converged {c | c ∈ contacts} := by
  induction contacts using List.reverseRecOn with
  | nil =>
    have hset : {c : Contact | c ∈ ([] : List Contact)} = ∅ := by simp
    rw [hset]
    exact converged_nil myId
  | append_singleton contacts c ih =>
    have hset : {x | x ∈ contacts ++ [c]} = insert c {x | x ∈ contacts} := by
      ext x
      show x ∈ contacts ++ [c] ↔ x = c ∨ x ∈ contacts
      rw [List.mem_append, List.mem_singleton, or_comm]
    rw [hset] at hids ⊢
    rw [List.map_append, List.map_singleton, run_concat]
    exact (ih (hids.mono (Set.subset_insert _ _))).maybeAddContact hids

end Table

/-! ## Answers that lead on

A query reads the bucket of the target's range first and goes on to others
until it has `K` candidates; the siblings are read besides. An answer leads on
(`Nearest.Leads`) if it leaves out no node or names `K`; and from a node that
is not among the `K` nearest it must, if it leaves out anyone nearer than that
node, name only such. -/

/-- **A network balanced around a target**: of the ids that part from a node's
where the target does, there are `K`, or no more than `K` others share more
with the node's. It is asked of the nodes that are not among the `K` nearest.
In the first case the node's bucket for the target is full, and all of it is
nearer to the target than the node is; in the second the node knows everyone on
its own side of the target as a sibling. -/
def Balanced (ids : Set NodeId) (t : NodeId) : Prop :=
  ∀ n ∈ ids, (K : ℕ∞) ≤ {y ∈ ids | distance y t < distance n t}.encard →
    K ≤ {y ∈ ids | sharedPrefix y n = sharedPrefix t n}.encard
      ∨ {y ∈ ids | y ≠ n ∧ sharedPrefix t n < sharedPrefix y n}.encard ≤ K

namespace Table

variable {nodes : Set Contact} {table : Table}

/-- The candidates of a query are distinct. -/
theorem nodup_candidates (h : table.Ok) (t : NodeId) : (table.fallback.candidates t).Nodup := by
  obtain ⟨r, heq, -⟩ := StaticBucket.exists_candidates_eq table.fallback t
  rw [heq]
  exact List.Nodup.of_map _ (h.fallback.nodup_within _ r)

/-- **A query that leaves out a node answers with `K`.** The buckets hold the
node besides the candidates that were read, or they hold `K` in its own bucket;
either way there was more to read, and a query stops before that only with `K`
candidates. -/
theorem Converged.le_length_closeNodes (h : table.Converged nodes) {t : NodeId} {x : Contact}
    (hx : x ∈ nodes) (hme : x.id ≠ table.myId) (hread : x ∉ table.read t) :
    K ≤ (table.closeNodes t).length := by
  have hnodup := nodup_candidates h.ok t
  have hsub : table.fallback.candidates t ⊆ table.fallback.contactsIter :=
    fun _ hc => h.ok.fallback.candidates_subset hc
  have hmin := h.ok.fallback.min_length_candidates t
  have hmany : K ≤ (table.fallback.candidates t).length := by
    rcases h.placed x hx hme with hin | hfull
    · have hlt : (x :: table.fallback.candidates t).length ≤ table.fallback.contactsIter.length :=
        ((List.nodup_cons.mpr ⟨fun hc => hread (List.mem_append_left _ hc), hnodup⟩).subperm
          (List.cons_subset.mpr ⟨hin, hsub⟩)).length_le
      rw [List.length_cons] at hlt
      omega
    · have hle := ((List.Nodup.of_map _ (h.ok.fallback.nodup _)).subperm fun c hc =>
        StaticBucket.mem_contactsIter.mpr ⟨table.fallback.bucketIndex x.id, hc⟩).length_le
      omega
  by_contra hshort
  -- a short answer has everything that was read
  have hall : table.fallback.candidates t ⊆ table.closeNodes t := fun c hc =>
    ((selects_closeNodes h.ok t).least c (List.mem_append_left _ hc)).resolve_right
      fun hout => hshort hout.1.ge
  exact hshort (hmany.trans (hnodup.subperm hall).length_le)

/-- The bucket of an id that is not our own is the length of the prefix it
shares with ours. -/
theorem bucketIndex_eq (h : table.Ok) {id : NodeId} (hid : id ≠ table.myId) :
    (table.fallback.bucketIndex id : ℕ) = sharedPrefix id table.myId := by
  rw [StaticBucket.bucketIndex_eq_sharedPrefix _ (h.myId ▸ hid), h.myId]

/-- **With a full home bucket all of the answer is nearer than ourselves.** -/
theorem distance_lt_of_full_home (h : table.Ok) {t : NodeId} (ht : t ≠ table.myId)
    (hfull : (table.fallback.contacts (table.fallback.bucketIndex t)).toList.length = K)
    {b : Contact} (hb : b ∈ table.closeNodes t) : distance b.id t < distance table.myId t := by
  refine (selects_closeNodes h t).lt_of_le_length
    (List.Nodup.of_map _ (h.fallback.nodup (table.fallback.bucketIndex t))) (fun y hy => ?_)
    hfull.ge hb
  have hheld := StaticBucket.mem_contactsIter.mpr ⟨_, hy⟩
  have hhome := h.fallback.placed _ y hy
  refine ⟨List.mem_append_left _ (h.fallback.mem_candidates_of_home hheld hhome), ?_⟩
  -- it parts from us where the target does, and so shares more with the target
  have hy' : y.id ≠ table.myId := h.ne_myId_of_mem (SiblingList.mem_contactsIter.mpr (Or.inr hheld))
  have hsame : sharedPrefix y.id table.myId = sharedPrefix t table.myId := by
    rw [← bucketIndex_eq h hy', ← bucketIndex_eq h ht, hhome]
  have hmore := sharedPrefix_lt_of_eq hsame hy'
  rw [hsame, sharedPrefix_comm t] at hmore
  exact distance_lt_of_sharedPrefix_lt hmore

/-- With `K` nodes in the range of the target the home bucket is full. -/
theorem Converged.full_home (h : table.Converged nodes) {t : NodeId} (ht : t ≠ table.myId)
    (hmany : K ≤ {y ∈ Contact.id '' nodes | sharedPrefix y table.myId
      = sharedPrefix t table.myId}.encard) :
    (table.fallback.contacts (table.fallback.bucketIndex t)).toList.length = K := by
  by_contra hroom
  refine hroom (le_antisymm (BoundedVec.length_le _) ?_)
  -- every node of the range is in the bucket, as there is room
  have hsub : {y ∈ Contact.id '' nodes | sharedPrefix y table.myId = sharedPrefix t table.myId}
      ⊆ {i | i ∈ (table.fallback.contacts (table.fallback.bucketIndex t)).toList.map
          Contact.id} := by
    rintro _ ⟨⟨y, hy, rfl⟩, hrange⟩
    have hyme : y.id ≠ table.myId := by
      intro hyme
      rw [hyme, sharedPrefix_self] at hrange
      exact absurd (sharedPrefix_lt_of_ne ht) (by omega)
    have hhome : table.fallback.bucketIndex y.id = table.fallback.bucketIndex t :=
      Fin.ext (by rw [bucketIndex_eq h.ok hyme, bucketIndex_eq h.ok ht, hrange])
    have hin := (h.placed y hy hyme).resolve_right (fun hfull => hroom (hhome ▸ hfull))
    obtain ⟨i, hi⟩ := StaticBucket.mem_contactsIter.mp hin
    have hplaced := h.ok.fallback.placed i y hi
    rw [← hplaced, hhome] at hi
    exact List.mem_map.mpr ⟨y, hi, rfl⟩
  have hle := hmany.trans (Set.encard_le_encard hsub)
  rw [Nearest.encard_of_nodup (h.ok.fallback.nodup _), List.length_map] at hle
  exact_mod_cast hle

/-- With no more than `K` others beyond the target's range, one of them is a
sibling. -/
theorem Converged.mem_siblings_of_deeper (h : table.Converged nodes) {t : NodeId}
    (hfew : {y ∈ Contact.id '' nodes | y ≠ table.myId
      ∧ sharedPrefix t table.myId < sharedPrefix y table.myId}.encard ≤ K) {x : Contact}
    (hx : x ∈ nodes) (hme : x.id ≠ table.myId)
    (hdeeper : sharedPrefix t table.myId < sharedPrefix x.id table.myId) :
    x ∈ table.siblings.toList := by
  by_contra hnot
  obtain ⟨hfull, hbeyond⟩ := (h.siblings.least x ⟨hx, hme⟩).resolve_left hnot
  -- then the `K` siblings and `x` are all beyond the range
  have hnodup : ((x :: table.siblings.toList).map Contact.id).Nodup := by
    rw [List.map_cons]
    refine List.nodup_cons.mpr ⟨fun hid => ?_, h.ok.nodup_siblings⟩
    obtain ⟨s, hs, hsx⟩ := List.mem_map.mp hid
    have hlt := hbeyond s hs
    rw [hsx] at hlt
    exact lt_irrefl _ hlt
  have hsub : {i | i ∈ (x :: table.siblings.toList).map Contact.id}
      ⊆ {y ∈ Contact.id '' nodes | y ≠ table.myId
        ∧ sharedPrefix t table.myId < sharedPrefix y table.myId} := by
    intro i hi
    obtain ⟨s, hs, rfl⟩ := List.mem_map.mp hi
    rcases List.mem_cons.mp hs with rfl | hs
    · exact ⟨⟨s, hx, rfl⟩, hme, hdeeper⟩
    · obtain ⟨hsn, hsme⟩ := h.siblings.subset s hs
      refine ⟨⟨s, hsn, rfl⟩, hsme, hdeeper.trans_le (not_lt.mp fun hlt => ?_)⟩
      exact absurd (distance_lt_of_sharedPrefix_lt hlt) (hbeyond s hs).asymm
  have hle := (Set.encard_le_encard hsub).trans hfew
  rw [Nearest.encard_of_nodup hnodup, List.length_map, List.length_cons, hfull] at hle
  exact absurd (by exact_mod_cast hle) (Nat.not_succ_le_self K)

/-- **The answers of a converged table lead on**, in a network balanced around
the target. A node that was read is named, or beyond an answer of `K` that are
nearer; one that was not has an answer of `K` before it. What is left is that
such an answer is nearer than ourselves, if the node is and we are not among
the `K` nearest. With a full home bucket it is. By balance there are `K` nodes
in the target's range, and so the bucket is full; or those who share more with
us than the target does are siblings, all of which are read. The node left out
is then of the target's range itself, and is not in the bucket because the
bucket is full. -/
theorem Converged.leads (h : table.Converged nodes) {t : NodeId}
    (hme : table.myId ∈ Contact.id '' nodes) (hbalanced : Balanced (Contact.id '' nodes) t) :
    Nearest.Leads (fun i => distance i t) K (Contact.id '' nodes) table.myId
      ((table.closeNodes t).map Contact.id) := by
  rintro _ ⟨x, hx, rfl⟩ hxme
  by_cases hread : x ∈ table.read t
  · -- what is read is answered, or beyond a full answer
    refine ((selects_closeNodes h.ok t).least x hread).imp
      (fun hc => List.mem_map.mpr ⟨x, hc, rfl⟩) ?_
    rintro ⟨hfull, hbeyond⟩
    refine ⟨(List.length_map Contact.id).trans hfull |>.ge, fun _ hlt y hy => ?_⟩
    obtain ⟨b, hb, rfl⟩ := List.mem_map.mp hy
    exact (hbeyond b hb).trans hlt
  refine Or.inr ⟨?_, fun hmany hlt y hy => ?_⟩
  · rw [List.length_map]
    exact h.le_length_closeNodes hx hxme hread
  obtain ⟨b, hb, rfl⟩ := List.mem_map.mp hy
  have ht : t ≠ table.myId := by
    rintro rfl
    have hzero : distance table.myId table.myId = 0 := by rw [distance, Nat.xor_self]
    exact Nat.not_lt_zero _ (hlt.trans_eq hzero)
  refine distance_lt_of_full_home h.ok ht ?_ hb
  rcases hbalanced table.myId hme hmany with hrange | hfew
  · exact h.full_home ht hrange
  -- being nearer, it is in the target's range, where it would be read, or beyond, and a sibling
  rcases lt_trichotomy (sharedPrefix x.id table.myId) (sharedPrefix t table.myId)
    with hshort | hsame | hdeeper
  · have hxt := sharedPrefix_of_lt hshort
    rw [sharedPrefix_comm, sharedPrefix_comm t] at hshort
    refine absurd (distance_lt_of_sharedPrefix_lt (t := t) (a := table.myId) (b := x.id) ?_)
      hlt.asymm
    rw [sharedPrefix_comm x.id t, hxt, sharedPrefix_comm]
    exact hshort
  · have hhome : table.fallback.bucketIndex x.id = table.fallback.bucketIndex t :=
      Fin.ext (by rw [bucketIndex_eq h.ok hxme, bucketIndex_eq h.ok ht, hsame])
    refine hhome ▸ (h.placed x hx hxme).resolve_left fun hin => hread ?_
    exact List.mem_append_left _ (h.ok.fallback.mem_candidates_of_home hin hhome)
  · exact absurd (List.mem_append_right _ (h.mem_siblings_of_deeper hfew hx hxme hdeeper)) hread

/-- Offers do not change whose table it is. -/
theorem run_maybeAdd_myId (myId : NodeId) (contacts : List Contact) :
    (run myId (contacts.map TableOp.maybeAdd)).myId = myId := by
  induction contacts using List.reverseRecOn with
  | nil => rfl
  | append_singleton contacts c ih =>
    rw [List.map_append, List.map_singleton, run_concat]
    exact (SiblingList.maybeAddContact_myId _ c).trans ih

/-- **A table that was offered every node.** However often and in whatever
order it was offered them: it holds nodes only, its siblings are the `K` nodes
nearest to its own id, further offers of nodes change nothing, and in a network
balanced around a target its answer leads on. This is where a network in order
comes from. The table is one that was run from the start by the program's own
operations, and what a network asks of its nodes' tables (`Steady`) is what is
shown here. -/
theorem offered_every_node (myId : NodeId) (contacts again : List Contact)
    (hids : Set.InjOn Contact.id {c | c ∈ contacts}) (hagain : again ⊆ contacts) :
    let table := run myId (contacts.map TableOp.maybeAdd)
    (∀ c ∈ table.contactsIter, c ∈ contacts)
      ∧ Nearest.Selects (fun c => distance c.id myId) K {c | c ∈ contacts ∧ c.id ≠ myId}
          table.siblings.toList
      ∧ run myId ((contacts ++ again).map TableOp.maybeAdd) = table
      ∧ ∀ t, myId ∈ contacts.map Contact.id →
        Balanced {i | i ∈ contacts.map Contact.id} t →
          Nearest.Leads (fun i => distance i t) K {i | i ∈ contacts.map Contact.id} myId
            ((table.closeNodes t).map Contact.id) := by
  intro table
  have h := converged_run myId hids
  have hset : Contact.id '' {c | c ∈ contacts} = {i | i ∈ contacts.map Contact.id} := by
    ext i
    exact List.mem_map.symm
  refine ⟨fun c hc => h.mem_of_held hc, ?_, ?_, fun t hme hbalanced => ?_⟩
  · have hsib := h.siblings
    rwa [run_maybeAdd_myId] at hsib
  · induction again using List.reverseRecOn with
    | nil => rw [List.append_nil]
    | append_singleton again c ih =>
      have hc : c ∈ contacts := hagain (List.mem_append_right _ List.mem_cons_self)
      rw [← List.append_assoc, List.map_append, List.map_singleton, run_concat,
        ih fun x hx => hagain (List.mem_append_left _ hx)]
      exact h.maybeAddContact_eq hids hc
  · have hleads := h.leads (t := t) (by rw [run_maybeAdd_myId, hset]; exact hme) (hset ▸ hbalanced)
    rwa [run_maybeAdd_myId, hset] at hleads

/-- Twelve nodes in two branches, some of them offered again. -/
theorem offered_every_node_sample :
    run (contact 0 0).id (((([0x80, 0x81, 0x82, 0x83, 0x84, 0x85, 0x86, 0x87, 0x88, 0x89, 0x8a,
        0] : List UInt8).map (contact · 1000)) ++ [contact 0x8a 1000, contact 0x80 1000]).map
          TableOp.maybeAdd)
      = run (contact 0 0).id ((([0x80, 0x81, 0x82, 0x83, 0x84, 0x85, 0x86, 0x87, 0x88, 0x89,
        0x8a, 0] : List UInt8).map (contact · 1000)).map TableOp.maybeAdd) :=
  (offered_every_node (contact 0 0).id _ [contact 0x8a 1000, contact 0x80 1000]
    (fun _ ha _ hb => List.inj_on_of_nodup_map (by decide +kernel) ha hb)
    (by decide +kernel)).2.2.1

end Table

/-! ## What a network relies on

The results about networks do not look into a table. They rely on what follows,
which holds of the plain table and of the one with a cache in front. -/

/-- **A node's routing table at rest in a network.** An offer of a node changes
nothing, and a query is answered with at most `K` nodes other than the table's
own, in a way that leads on. -/
structure Steady {τ : Type} [CloseNodes τ] (nodes : Set Contact) (myId : NodeId) (table : τ) :
    Prop where
  /-- An offer of a node changes nothing. -/
  offer : ∀ c ∈ nodes, CloseNodes.maybeAddContact table c = table
  /-- A query is answered with nodes, other than our own. -/
  subset : ∀ t, ∀ c ∈ CloseNodes.closeNodes table t, c ∈ nodes ∧ c.id ≠ myId
  /-- No id is repeated in an answer. -/
  nodup : ∀ t, ((CloseNodes.closeNodes table t).map Contact.id).Nodup
  /-- There are at most `K` contacts in an answer. -/
  length_le : ∀ t, (CloseNodes.closeNodes table t).length ≤ K
  /-- An answer leads on. -/
  leads : ∀ t, Balanced (Contact.id '' nodes) t →
    Nearest.Leads (fun i => distance i t) K (Contact.id '' nodes) myId
      ((CloseNodes.closeNodes table t).map Contact.id)

/-- A converged table is at rest. -/
theorem Table.Converged.steady {nodes : Set Contact} {table : Table} (h : table.Converged nodes)
    (hids : Set.InjOn Contact.id nodes) (hme : table.myId ∈ Contact.id '' nodes) :
    Steady nodes table.myId table := by
  refine ⟨fun c hc => h.maybeAddContact_eq hids hc, fun t c hc => ?_,
    fun t => nodup_ids_of_selects (Table.selects_closeNodes h.ok t),
    fun t => SiblingList.length_closeNodes_le table t, fun t hbalanced => h.leads hme hbalanced⟩
  have hheld := h.ok.closeNodes_subset t hc
  exact ⟨h.mem_of_held hheld, h.ok.ne_myId_of_mem hheld⟩

/-- **A cached table at rest**: offers make no answer stale, the table is at rest,
and every answer kept is what the table answers. -/
structure CachedCloseNodes.AtRest (nodes : Set Contact) (cache : RecommendedCloseNodes) : Prop where
  /-- Offers make no answer stale. -/
  ttlOnly : cache.invalidateOnWrite = false
  /-- The table has heard of every node. -/
  inner : cache.inner.Converged nodes
  /-- What is kept is what the table answers. -/
  entries : ∀ p ∈ cache.entries, p.2.contacts = CloseNodes.closeNodes cache.inner p.1

/-- What is served is what the table answers. -/
theorem CachedCloseNodes.AtRest.closeNodes_eq {nodes : Set Contact} {cache : RecommendedCloseNodes}
    (h : cache.AtRest nodes) (t : NodeId) :
    CloseNodes.closeNodes cache t = CloseNodes.closeNodes cache.inner t := by
  show (cache.closeNodes t).1 = _
  unfold CachedCloseNodes.closeNodes
  dsimp only
  split
  · next contacts hlookup =>
    unfold CachedCloseNodes.lookup at hlookup
    split at hlookup
    · next p entry hfind =>
      obtain ⟨-, hcontacts⟩ := Option.ite_none_right_eq_some.mp hlookup
      have hkept := h.entries _ (List.mem_of_find?_eq_some hfind)
      have hid := List.find?_some hfind
      rw [beq_iff_eq.mp hid, Option.some.inj hcontacts] at hkept
      exact hkept
    · cases hlookup
  · rfl

/-- **The table a node routes with is at rest**, with its cache: what the cache
keeps is what the table would answer, so an answer that was kept is as good as
a new one, whatever its age. -/
theorem CachedCloseNodes.AtRest.steady {nodes : Set Contact} {cache : RecommendedCloseNodes}
    (h : cache.AtRest nodes) (hids : Set.InjOn Contact.id nodes)
    (hme : cache.inner.myId ∈ Contact.id '' nodes) : Steady nodes cache.inner.myId cache := by
  have hinner := h.inner.steady hids hme
  refine ⟨fun c hc => ?_, fun t => ?_, fun t => ?_, fun t => ?_, fun t hbalanced => ?_⟩
  · show cache.maybeAddContact c = cache
    unfold CachedCloseNodes.maybeAddContact CachedCloseNodes.write
    dsimp only
    rw [if_neg (by rw [h.ttlOnly]; exact Bool.false_ne_true)]
    show { cache with inner := CloseNodes.maybeAddContact cache.inner c } = cache
    rw [hinner.offer c hc]
  all_goals rw [h.closeNodes_eq t]
  · exact hinner.subset t
  · exact hinner.nodup t
  · exact hinner.length_le t
  · exact hinner.leads t hbalanced

end Kademlia
