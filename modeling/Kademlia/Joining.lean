import Kademlia.Bootstrap
import Kademlia.ClusterLookup

/-!
# Joining a network

A node joins through a seed: it asks who the seed is, looks up its own id, and then
an id in every bucket farther away than the nearest node it found. This module is
about what that leads to in a network whose nodes have heard of each other.

The network is not at rest while a node joins. Whoever is asked learns the newcomer
before it answers, and may from then on answer with the newcomer itself, which takes
the place of another contact. So the nodes found need not be the `K` nearest. What is
needed of a lookup is less, and holds whatever the ids are: of the nodes that share a
prefix of some length with the target, it hears of all, or of `K`
(`Table.covered_of_answer`). The nearest node found is enough for this. Being one of
them, it has all the others among its siblings, or `K`; and not being one of them, it
would have led on.

The newcomer's own table has heard of some of the nodes all the while. It is complete
once these are all nodes of every bucket, or `K` (`Cluster.joined_is_complete`).
-/

namespace Kademlia

open HandleRpc

/-! ## Subtrees

The nodes around a target, by the length of the prefix they share with it. A
node of a subtree knows the rest of it or `K` of it; a node outside leads to
it. -/

/-- The nodes that share a prefix of a length with a target. -/
def subtree (nodes : Set Contact) (t : NodeId) (depth : ℕ) : Set Contact :=
  {c ∈ nodes | depth ≤ sharedPrefix c.id t}

theorem subtree_mono {nodes nodes' : Set Contact} (h : nodes ⊆ nodes') (t : NodeId) (depth : ℕ) :
    subtree nodes t depth ⊆ subtree nodes' t depth :=
  fun _ hc => ⟨h hc.1, hc.2⟩

/-- The nodes other than one. -/
def others (nodes : Set Contact) (id : NodeId) : Set Contact := {c ∈ nodes | c.id ≠ id}

theorem others_mono {nodes nodes' : Set Contact} (h : nodes ⊆ nodes') (id : NodeId) :
    others nodes id ⊆ others nodes' id :=
  fun _ hc => ⟨h hc.1, hc.2⟩

/-- **Heard of all other nodes of a subtree, or of `K`.** -/
def Covers (nodes heard : Set Contact) (me t : NodeId) (depth : ℕ) : Prop :=
  subtree (others nodes me) t depth ⊆ heard
    ∨ K ≤ (Contact.id '' subtree (others heard me) t depth).encard

theorem Covers.mono {nodes heard heard' : Set Contact} {me t : NodeId} {depth : ℕ}
    (h : Covers nodes heard me t depth) (hsub : heard ⊆ heard') :
    Covers nodes heard' me t depth :=
  h.imp (fun hall => hall.trans hsub) fun hmany => hmany.trans (Set.encard_le_encard
    (Set.image_mono (subtree_mono (others_mono hsub me) t depth)))

namespace Table

variable {nodes : Set Contact} {table : Table} {t : NodeId} {depth : ℕ}

/-- What is in a subtree around the target is nearer to it than what is not. -/
theorem distance_lt_of_subtree {y z : Contact} (hy : y ∈ subtree nodes t depth) (hz : z ∈ nodes)
    (hout : z ∉ subtree nodes t depth) : distance y.id t < distance z.id t :=
  distance_lt_of_sharedPrefix_lt ((not_le.mp fun hle => hout ⟨hz, hle⟩).trans_le hy.2)

/-- It is also nearer to whomever is in it. -/
theorem distance_lt_of_subtree_of_mem {n : NodeId} (hn : depth ≤ sharedPrefix n t) {y z : Contact}
    (hy : y ∈ subtree nodes t depth) (hz : z ∈ nodes) (hout : z ∉ subtree nodes t depth) :
    distance y.id n < distance z.id n := by
  have hshort : sharedPrefix z.id t < depth := not_le.mp fun hle => hout ⟨hz, hle⟩
  have hzn : sharedPrefix z.id n = sharedPrefix z.id t := by
    rw [sharedPrefix_comm]
    exact sharedPrefix_of_lt (hshort.trans_le hn)
  refine distance_lt_of_sharedPrefix_lt (hzn ▸ hshort.trans_le ?_)
  exact (le_min hy.2 hn).trans (min_sharedPrefix_le y.id n t)

/-- **A node of a subtree answers with the rest of it**, or with `K` of it. -/
theorem Converged.answer_of_mem_subtree (h : table.Converged nodes)
    (hme : depth ≤ sharedPrefix table.myId t) :
    (∀ y ∈ subtree nodes t depth, y.id ≠ table.myId → y ∈ table.closeNodes t)
      ∨ ((table.closeNodes t).length = K
        ∧ ∀ z ∈ table.closeNodes t, z ∈ subtree nodes t depth) := by
  have hread : ∀ z ∈ table.read t, z ∈ nodes := fun z hz => by
    rcases List.mem_append.mp hz with hz | hz
    · exact h.subset z (h.ok.fallback.candidates_subset hz)
    · exact (h.siblings.subset z hz).1
  have hanswer := selects_closeNodes h.ok t
  -- what is answered of siblings that are in the subtree
  have hsegment : ∀ Q₀ ⊆ {c | c ∈ table.siblings.toList}, Q₀ ⊆ subtree nodes t depth →
      (∀ y ∈ Q₀, y ∈ table.closeNodes t) ∨ ((table.closeNodes t).length = K
        ∧ ∀ z ∈ table.closeNodes t, z ∈ subtree nodes t depth) := fun Q₀ hsib hQ₀ =>
    hanswer.segment (fun y hy => List.mem_append_right _ (hsib hy))
      fun y hy z hz hout => distance_lt_of_subtree (hQ₀ hy) (hread z hz) hout
  rcases h.siblings.segment (P := {c ∈ subtree nodes t depth | c.id ≠ table.myId})
    (Q := subtree nodes t depth) (fun y hy => ⟨hy.1.1, hy.2⟩)
    (fun y hy z hz hout => distance_lt_of_subtree_of_mem hme hy.1 hz.1 hout)
    with hall | ⟨hfull, hsub⟩
  · exact (hsegment _ (fun y hy => hall y hy) fun y hy => hy.1).imp_left
      fun hin y hy hne => hin y ⟨hy, hne⟩
  · refine Or.inr ((hsegment _ Set.Subset.rfl hsub).elim (fun hin => ?_) id)
    have hsubperm : table.siblings.toList.Subperm (table.closeNodes t) :=
      (List.Nodup.of_map _ h.ok.nodup_siblings).subperm hin
    have hperm := hsubperm.perm_of_length_le (hanswer.length_le.trans hfull.ge)
    exact ⟨hperm.length_eq ▸ hfull, fun z hz => hsub z (hperm.symm.subset hz)⟩

/-- **Another node leads to it.** -/
theorem Converged.answer_of_notMem_subtree (h : table.Converged nodes)
    (hme : sharedPrefix table.myId t < depth) {y : Contact} (hy : y ∈ subtree nodes t depth) :
    y ∈ table.closeNodes t ∨ ((table.closeNodes t).length = K
      ∧ ∀ z ∈ table.closeNodes t, distance z.id t < distance table.myId t) := by
  have hnearer : distance y.id t < distance table.myId t :=
    distance_lt_of_sharedPrefix_lt (hme.trans_le hy.2)
  have hyme : y.id ≠ table.myId := fun heq => hnearer.ne (heq ▸ rfl)
  have ht : t ≠ table.myId := by
    rintro rfl
    exact absurd (hme.trans_le hy.2) (by rw [sharedPrefix_self]; exact (sharedPrefix_le _ _).not_gt)
  have hanswer := selects_closeNodes h.ok t
  by_cases hfull : (table.fallback.contacts (table.fallback.bucketIndex t)).toList.length = K
  · refine Or.inr ⟨le_antisymm hanswer.length_le ?_,
      fun z hz => distance_lt_of_full_home h.ok ht hfull hz⟩
    have hread : {c | c ∈ (table.fallback.contacts (table.fallback.bucketIndex t)).toList}
        ⊆ {c | c ∈ table.read t} := fun c hc =>
      List.mem_append_left _ (h.ok.fallback.mem_candidates_of_home
        (StaticBucket.mem_contactsIter.mpr ⟨_, hc⟩) (h.ok.fallback.placed _ c hc))
    rcases hanswer.segment (Q := Set.univ) hread
      (fun _ _ _ _ hout => absurd (Set.mem_univ _) hout) with hall | ⟨hlen, -⟩
    · exact hfull.ge.trans ((List.Nodup.of_map _ (h.ok.fallback.nodup _)).subperm hall).length_le
    · exact hlen.ge
  · have hsame : sharedPrefix y.id table.myId = sharedPrefix t table.myId := by
      rw [sharedPrefix_comm t, ← sharedPrefix_of_lt (hme.trans_le hy.2)]
    have hhome : table.fallback.bucketIndex y.id = table.fallback.bucketIndex t :=
      Fin.ext (by rw [bucketIndex_eq h.ok hyme, bucketIndex_eq h.ok ht, hsame])
    have hin := (h.placed y hy.1 hyme).resolve_right (fun hf => hfull (hhome ▸ hf))
    refine (hanswer.least y (List.mem_append_left _
      (h.ok.fallback.mem_candidates_of_home hin hhome))).imp_right fun hout => ?_
    exact ⟨hout.1, fun z hz => (hout.2 z hz).trans hnearer⟩

/-- A table of a node that has heard of all of some nodes, and only of some. -/
def Between (low high : Set Contact) (id : NodeId) (table : Table) : Prop :=
  table.myId = id ∧ ∃ S, low ⊆ S ∧ S ⊆ high ∧ table.Converged S

theorem Between.mono {low high high' : Set Contact} {id : NodeId} (h : table.Between low high id)
    (hsub : high ⊆ high') : table.Between low high' id := by
  obtain ⟨hid, S, hlow, hhigh, hconverged⟩ := h
  exact ⟨hid, S, hlow, hhigh.trans hsub, hconverged⟩

/-- An answer names nodes, other than the one that gives it. -/
theorem Between.mem_closeNodes {low high : Set Contact} {id : NodeId}
    (h : table.Between low high id) {c : Contact} (hc : c ∈ table.closeNodes t) :
    c ∈ high ∧ c.id ≠ id := by
  obtain ⟨rfl, S, -, hhigh, hconverged⟩ := h
  have hheld := hconverged.ok.closeNodes_subset t hc
  exact ⟨hhigh (hconverged.mem_of_held hheld), hconverged.ok.ne_myId_of_mem hheld⟩

/-- Whoever has heard of another node answers with someone. -/
theorem Between.closeNodes_ne_nil {low high : Set Contact} {id : NodeId}
    (h : table.Between low high id) {x : Contact} (hx : x ∈ low) (hne : x.id ≠ id) :
    table.closeNodes t ≠ [] := by
  obtain ⟨rfl, S, hlow, -, hconverged⟩ := h
  intro hnil
  by_cases hread : x ∈ table.read t
  · rcases (selects_closeNodes hconverged.ok t).least x hread with hin | ⟨hfull, -⟩
    · exact absurd (hnil ▸ hin) List.not_mem_nil
    · exact absurd (hfull.symm.trans (congrArg List.length hnil)) (by decide)
  · have hlen := hconverged.le_length_closeNodes (hlow hx) hne hread
    rw [hnil] at hlen
    exact absurd hlen (by decide)

variable {me : NodeId} {heard : Set Contact} {c : Contact}

/-- An answer of `K` names others than the one who asks. -/
theorem exists_ne_of_full {l : List Contact} (hids : (l.map Contact.id).Nodup)
    (hfull : l.length = K) (me : NodeId) : ∃ z ∈ l, z.id ≠ me := by
  by_contra hall
  push Not at hall
  have hsub : l.map Contact.id ⊆ [me] := fun i hi => by
    obtain ⟨z, hz, rfl⟩ := List.mem_map.mp hi
    exact List.mem_singleton.mpr (hall z hz)
  have hle := (hids.subperm hsub).length_le
  rw [List.length_map, hfull, List.length_singleton] at hle
  exact absurd hle (by decide)

/-- **The nearest node found is in every subtree there is.** -/
theorem Between.mem_subtree_of_answer (h : table.Between (others nodes me) nodes c.id)
    (hnearest : ∀ x ∈ heard, distance c.id t ≤ distance x.id t)
    (hanswer : ∀ x ∈ table.closeNodes t, x.id ≠ me → x ∈ heard) {y : Contact}
    (hy : y ∈ subtree (others nodes me) t depth) : depth ≤ sharedPrefix c.id t := by
  obtain ⟨hid, S, hlow, -, hconverged⟩ := h
  by_contra hout
  have hy' : y ∈ subtree S t depth := subtree_mono hlow t depth hy
  rw [← hid] at hout hnearest
  rcases hconverged.answer_of_notMem_subtree (not_le.mp hout) hy' with hin | ⟨hfull, hnearer⟩
  · exact (hnearest y (hanswer y hin hy.1.2)).not_gt
      (distance_lt_of_sharedPrefix_lt ((not_le.mp hout).trans_le hy.2))
  · obtain ⟨z, hz, hne⟩ := exists_ne_of_full
      (nodup_ids_of_selects (selects_closeNodes hconverged.ok t)) hfull me
    exact (hnearest z (hanswer z hz hne)).not_gt (hnearer z hz)

/-- **What the nearest node found answers covers every subtree.** If there is
anyone in the subtree, the nearest node found is in it. So its answer is the
rest of the subtree, or `K` of it, of which the newcomer may be one; but then
the node itself is one more. -/
theorem Between.covers (h : table.Between (others nodes me) nodes c.id)
    (hids : Set.InjOn Contact.id nodes) (hc : c ∈ heard) (hcme : c.id ≠ me) (hcn : c ∈ nodes)
    (hnearest : ∀ x ∈ heard, distance c.id t ≤ distance x.id t)
    (hanswer : ∀ x ∈ table.closeNodes t, x.id ≠ me → x ∈ heard) (depth : ℕ) :
    Covers nodes heard me t depth := by
  by_cases hempty : subtree (others nodes me) t depth = ∅
  · exact Or.inl (hempty ▸ Set.empty_subset _)
  obtain ⟨y, hy⟩ := Set.nonempty_iff_ne_empty.mpr hempty
  have hdepth := h.mem_subtree_of_answer hnearest hanswer hy
  have hown : ∀ z ∈ table.closeNodes t, z.id ≠ c.id := fun z hz => (h.mem_closeNodes hz).2
  obtain ⟨hid, S, hlow, -, hconverged⟩ := h
  rcases hconverged.answer_of_mem_subtree (hid ▸ hdepth) with hall | ⟨hfull, hsub⟩
  · refine Or.inl fun x hx => ?_
    by_cases hxc : x.id = c.id
    · exact hids hx.1.1 hcn hxc ▸ hc
    · exact hanswer x (hall x (subtree_mono hlow t depth hx) (hid ▸ hxc)) hx.1.2
  · -- the answer without the one who asks, and the one who gave it
    have hnodup := nodup_ids_of_selects (selects_closeNodes hconverged.ok t)
    have hnot : c.id ∉ ((table.closeNodes t).map Contact.id).erase me := fun hmem => by
      obtain ⟨z, hz, hzc⟩ := List.mem_map.mp (List.mem_of_mem_erase hmem)
      exact hown z hz hzc
    refine Or.inr ?_
    have hcount : K ≤ (c.id :: ((table.closeNodes t).map Contact.id).erase me).length := by
      rw [List.length_cons, List.length_erase, List.length_map, hfull]
      split <;> omega
    refine (Nat.cast_le.mpr hcount).trans ?_
    rw [← Nearest.encard_of_nodup (List.nodup_cons.mpr ⟨hnot, hnodup.erase me⟩)]
    refine Set.encard_le_encard fun i hi => ?_
    rcases List.mem_cons.mp hi with rfl | hi
    · exact ⟨c, ⟨⟨hc, hcme⟩, hdepth⟩, rfl⟩
    · obtain ⟨hne, hmem⟩ := hnodup.mem_erase_iff.mp hi
      obtain ⟨z, hz, rfl⟩ := List.mem_map.mp hmem
      exact ⟨z, ⟨⟨hanswer z hz hne, hne⟩, (hsub z hz).2⟩, rfl⟩

end Table

/-! ## Tables that hear of nodes

With a cache in front, an answer may be older than the table. It is still that
of a table which had heard of all nodes but the newcomer. -/

section Heard

/-- **A cached table that has heard of some nodes**, and answers queries with what
it had heard of at some time, which is at least `low`. -/
structure RecommendedCloseNodes.Heard (low heard : Set Contact) (id : NodeId)
    (cache : RecommendedCloseNodes) : Prop where
  /-- Offers make no answer stale. -/
  ttlOnly : cache.invalidateOnWrite = false
  /-- It is the node's table. -/
  myId : cache.inner.myId = id
  /-- The table has heard of the nodes. -/
  inner : cache.inner.Converged heard
  /-- What is kept was answered at some time. -/
  entries : ∀ p ∈ cache.entries, ∃ table : Table, table.Between low heard id
    ∧ p.2.contacts = table.closeNodes p.1

variable {low heard : Set Contact} {id : NodeId} {cache : RecommendedCloseNodes}

/-- What is served was answered at some time. -/
theorem RecommendedCloseNodes.Heard.closeNodes (h : cache.Heard low heard id)
    (hlow : low ⊆ heard) (t : NodeId) :
    ∃ table : Table, table.Between low heard id
      ∧ CloseNodes.closeNodes cache t = table.closeNodes t := by
  show ∃ table, _ ∧ (cache.closeNodes t).1 = _
  unfold CachedCloseNodes.closeNodes
  dsimp only
  split
  · next contacts hlookup =>
    unfold CachedCloseNodes.lookup at hlookup
    split at hlookup
    · next p entry hfind =>
      obtain ⟨-, hcontacts⟩ := Option.ite_none_right_eq_some.mp hlookup
      obtain ⟨table, hbetween, hkept⟩ := h.entries _ (List.mem_of_find?_eq_some hfind)
      have hid := List.find?_some hfind
      rw [beq_iff_eq.mp hid, Option.some.inj hcontacts] at hkept
      exact ⟨table, hbetween, hkept⟩
    · cases hlookup
  · exact ⟨cache.inner, ⟨h.myId, heard, hlow, Set.Subset.rfl, h.inner⟩, rfl⟩

/-- **An offer is heard.** -/
theorem RecommendedCloseNodes.Heard.maybeAddContact (h : cache.Heard low heard id) {c : Contact}
    (hids : Set.InjOn Contact.id (insert c heard)) :
    RecommendedCloseNodes.Heard low (insert c heard) id (CloseNodes.maybeAddContact cache c) := by
  have hoffer : CloseNodes.maybeAddContact cache c
      = { cache with inner := cache.inner.maybeAddContact c } := by
    show cache.maybeAddContact c = _
    unfold CachedCloseNodes.maybeAddContact CachedCloseNodes.write
    dsimp only
    rw [if_neg (by rw [h.ttlOnly]; exact Bool.false_ne_true)]
    rfl
  rw [hoffer]
  refine ⟨h.ttlOnly, (SiblingList.maybeAddContact_myId _ c).trans h.myId,
    h.inner.maybeAddContact hids, fun p hp => ?_⟩
  obtain ⟨table, hbetween, hkept⟩ := h.entries p hp
  exact ⟨table, hbetween.mono (Set.subset_insert c heard), hkept⟩

/-- Offers are heard. -/
theorem RecommendedCloseNodes.Heard.offers (h : cache.Heard low heard id) (contacts : List Contact)
    (hids : Set.InjOn Contact.id (heard ∪ {c | c ∈ contacts})) :
    RecommendedCloseNodes.Heard low (heard ∪ {c | c ∈ contacts}) id
      (contacts.foldl CloseNodes.maybeAddContact cache) := by
  induction contacts generalizing heard cache with
  | nil =>
    have hset : heard ∪ {c | c ∈ ([] : List Contact)} = heard := by simp
    rw [hset]
    exact h
  | cons c contacts ih =>
    have hset : heard ∪ {x | x ∈ c :: contacts} = insert c heard ∪ {x | x ∈ contacts} := by
      ext x
      simp only [Set.mem_union, Set.mem_ofPred_eq, List.mem_cons, Set.mem_insert_iff]
      tauto
    rw [hset] at hids ⊢
    exact ih (h.maybeAddContact (hids.mono Set.subset_union_left)) hids

end Heard

namespace Cluster

variable {cluster : Cluster} {me c : Contact} {context context' : Context RecommendedCloseNodes}
  {net net' : Net RecommendedCloseNodes}

/-- **What other tasks offer is heard.** -/
theorem Offered.heard {low heard : Set Contact} {id : NodeId} {cache cache' : RecommendedCloseNodes}
    (h : cluster.Offered cache cache') (hheard : cache.Heard low heard id)
    (hsub : heard ⊆ cluster.nodes) :
    ∃ heard', heard ⊆ heard' ∧ heard' ⊆ cluster.nodes ∧ cache'.Heard low heard' id := by
  obtain ⟨contacts, hnodes, rfl⟩ := h
  have hsub' : heard ∪ {c | c ∈ contacts} ⊆ cluster.nodes := Set.union_subset hsub hnodes
  exact ⟨_, Set.subset_union_left, hsub', hheard.offers contacts (cluster.injOn_id.mono hsub')⟩

/-! ## A network that a node joins

Only the newcomer is new. Whatever happens, the others have heard of each
other, and those who have heard of the newcomer do not forget it. -/

variable (cluster) in
/-- **A node that has heard of every other but the newcomer**, and maybe of it. -/
structure Hosts (me c : Contact) (context : Context RecommendedCloseNodes) : Prop where
  /-- It has its id. -/
  myId : context.myId = c.id
  /-- It has heard of the nodes. -/
  table : ∃ heard, others cluster.nodes me.id ⊆ heard ∧ heard ⊆ cluster.nodes
    ∧ context.closeNodes.Heard (others cluster.nodes me.id) heard c.id

variable (cluster) in
/-- A node that has heard of the newcomer. -/
def Knows (me : Contact) (net : Net RecommendedCloseNodes) (c : Contact) : Prop :=
  ∃ context, net.nodes c.address = some context
    ∧ context.closeNodes.Heard (others cluster.nodes me.id) cluster.nodes c.id

variable (cluster) in
/-- What becomes of a node: it stays who it is, and is offered nodes. -/
def Goes (context context' : Context RecommendedCloseNodes) : Prop :=
  context'.myId = context.myId ∧ cluster.Offered context.closeNodes context'.closeNodes

theorem Hosts.goes (h : cluster.Hosts me c context) (hgoes : cluster.Goes context context') :
    cluster.Hosts me c context' := by
  obtain ⟨heard, hlow, hhigh, hheard⟩ := h.table
  obtain ⟨heard', hsub, hhigh', hheard'⟩ := hgoes.2.heard hheard hhigh
  exact ⟨hgoes.1.trans h.myId, heard', hlow.trans hsub, hhigh', hheard'⟩

/-- Who knows the newcomer does not forget it. -/
theorem Goes.heard {low : Set Contact} {id : NodeId} (h : cluster.Goes context context')
    (hheard : context.closeNodes.Heard low cluster.nodes id) :
    context'.closeNodes.Heard low cluster.nodes id := by
  obtain ⟨heard', hsub, hhigh, hheard'⟩ := h.2.heard hheard Set.Subset.rfl
  rwa [hhigh.antisymm hsub] at hheard'

/-- A handler leaves the table alone. -/
theorem goes_route (context : Context RecommendedCloseNodes) (method : Method)
    (body : List UInt8) :
    cluster.Goes context (HandleRpc.route cluster.crypto context method body).2 :=
  ⟨by cases method <;> rfl, [], fun _ hx => absurd hx List.not_mem_nil, by cases method <;> rfl⟩

theorem goes_learn (context : Context RecommendedCloseNodes) (hc : c ∈ cluster.nodes) :
    cluster.Goes context (context.learn c) :=
  ⟨rfl, [c], fun _ hx => List.mem_singleton.mp hx ▸ hc, rfl⟩

theorem Goes.trans {context'' : Context RecommendedCloseNodes} (h : cluster.Goes context context')
    (h' : cluster.Goes context' context'') : cluster.Goes context context'' := by
  obtain ⟨hid, contacts, hnodes, htable⟩ := h
  obtain ⟨hid', contacts', hnodes', htable'⟩ := h'
  refine ⟨hid'.trans hid, contacts ++ contacts', fun x hx => ?_, ?_⟩
  · exact (List.mem_append.mp hx).elim (hnodes x) (hnodes' x)
  · rw [htable', htable, List.foldl_append]

/-- **Whoever answers the newcomer has heard of it before it answers.** -/
theorem Hosts.heard_learn (h : cluster.Hosts me c context) (hme : me ∈ cluster.nodes) :
    (context.learn me).closeNodes.Heard (others cluster.nodes me.id) cluster.nodes c.id := by
  obtain ⟨heard, hlow, hhigh, hheard⟩ := h.table
  have hset : insert me heard = cluster.nodes := by
    refine (Set.insert_subset hme hhigh).antisymm fun x hx => ?_
    by_cases hid : x.id = me.id
    · exact Or.inl (cluster.injOn_id hx hme hid)
    · exact Or.inr (hlow ⟨hx, hid⟩)
  have hoffer := hheard.maybeAddContact (c := me) (hset ▸ cluster.injOn_id)
  rwa [hset] at hoffer

/-- What it answers to a node query reads as what its table answers. -/
theorem Hosts.nodesIn_route (h : cluster.Hosts me c context) (target : NodeId) :
    ∃ table : Table, table.Between (others cluster.nodes me.id) cluster.nodes c.id
      ∧ Rpc.nodesIn (HandleRpc.route cluster.crypto context .findNode
          ((serialize target).getD [])).1 = table.closeNodes target := by
  obtain ⟨heard, hlow, hhigh, hheard⟩ := h.table
  have hserved := fun t => hheard.closeNodes hlow t
  -- the query does not depend on what is stored
  have hanswers : RpcCall.Answers { context with values := fun _ => none } := by
    refine ⟨fun t => ?_, fun _ _ hv => by cases hv⟩
    obtain ⟨table, -, heq⟩ := hserved t
    exact heq ▸ SiblingList.length_closeNodes_le table t
  obtain ⟨body, hbody, -⟩ := fits_key target
  have hbody' : (RpcCall.findNode target).body = some body := hbody
  have hread : (RpcCall.findNode target).read (HandleRpc.route cluster.crypto
      { context with values := fun _ => none } .findNode body).1 = _ :=
    RpcCall.read_route hanswers hbody'
  obtain ⟨table, hbetween, heq⟩ := hserved target
  refine ⟨table, hbetween.mono hhigh, ?_⟩
  rw [show serialize target = some body from hbody, ← heq]
  exact RpcResult.contacts.inj hread

/-- It answers a ping with its id. -/
theorem Hosts.route_ping (h : cluster.Hosts me c context) (body : List UInt8) :
    ∃ reply, (HandleRpc.route cluster.crypto context .ping body).1 = some reply
      ∧ deserialize reply = some c.id := by
  obtain ⟨bytes, hbytes, -⟩ := fits_key c.id
  refine ⟨bytes, ?_, deserialize_serialize hbytes⟩
  show serialize context.myId = _
  rw [h.myId]
  exact hbytes

variable (cluster) in
/-- The calls of a newcomer in flight: pings and node queries, to other nodes. -/
def Asking (me : Contact) (inFlight : List Request) : Prop :=
  ∀ request ∈ inFlight, ∃ c ∈ others cluster.nodes me.id, ∃ method body,
    method.inDatagram = true ∧ request = ⟨c.address, framed me.id method body⟩

variable (cluster) in
/-- **A network that a node joins**: the others have heard of each other, and a
reply was given by one of them, who knows the newcomer since. Whoever is in
`known` does as well. -/
structure Welcoming (me : Contact) (known : Set Contact) (net : Net RecommendedCloseNodes) :
    Prop where
  /-- At an address there is one node. -/
  address : Set.InjOn Contact.address cluster.nodes
  /-- Every other node is there, and has heard of the others. -/
  node : ∀ c ∈ others cluster.nodes me.id, ∃ context, net.nodes c.address = some context
    ∧ cluster.Hosts me c context
  /-- These know the newcomer. -/
  known : ∀ c ∈ known, c ∈ others cluster.nodes me.id ∧ cluster.Knows me net c
  /-- A reply on its way was given by a node that knows the newcomer. -/
  given : ∀ p ∈ net.onTheWay, ∃ c ∈ others cluster.nodes me.id, p.1.peer = c.address
    ∧ cluster.Knows me net c ∧ ∃ context, cluster.Hosts me c context
      ∧ ∃ method body, p.1.payload = framed me.id method body
        ∧ p.2 = (HandleRpc.route cluster.crypto context method body).1

variable {known : Set Contact}

/-- Replies may get lost. -/
theorem Welcoming.of_subset (h : cluster.Welcoming me known net)
    {l : List (Request × Option (List UInt8))} (hl : l ⊆ net.onTheWay) :
    cluster.Welcoming me known { net with onTheWay := l } :=
  ⟨h.address, h.node, h.known, fun p hp => h.given p (hl hp)⟩

theorem Welcoming.mono (h : cluster.Welcoming me known net) {known' : Set Contact}
    (hsub : known' ⊆ known) : cluster.Welcoming me known' net :=
  ⟨h.address, h.node, fun c hc => h.known c (hsub hc), h.given⟩

/-- **A node that goes on keeps a network welcoming.** -/
theorem Welcoming.update (h : cluster.Welcoming me known net) (hc : c ∈ cluster.nodes)
    (hnode : net.nodes c.address = some context) (hgoes : cluster.Goes context context') :
    cluster.Welcoming me known
      { net with nodes := Function.update net.nodes c.address (some context') } := by
  have hknows : ∀ x ∈ others cluster.nodes me.id, cluster.Knows me net x → cluster.Knows me
      { net with nodes := Function.update net.nodes c.address (some context') } x := by
    rintro x hx ⟨context₁, hnode₁, hheard⟩
    by_cases haddress : x.address = c.address
    · obtain rfl := h.address hx.1 hc haddress
      cases hnode.symm.trans hnode₁
      exact ⟨context', Function.update_self .., hgoes.heard hheard⟩
    · exact ⟨context₁, (Function.update_of_ne haddress ..).trans hnode₁, hheard⟩
  refine ⟨h.address, fun x hx => ?_, fun x hx => ?_, fun p hp => ?_⟩
  · obtain ⟨context₁, hnode₁, hhosts⟩ := h.node x hx
    by_cases haddress : x.address = c.address
    · obtain rfl := h.address hx.1 hc haddress
      cases hnode.symm.trans hnode₁
      exact ⟨context', Function.update_self .., hhosts.goes hgoes⟩
    · exact ⟨context₁, (Function.update_of_ne haddress ..).trans hnode₁, hhosts⟩
  · exact ⟨(h.known x hx).1, hknows x (h.known x hx).1 (h.known x hx).2⟩
  · obtain ⟨x, hx, hpeer, hknown, hreply⟩ := h.given p hp
    exact ⟨x, hx, hpeer, hknows x hx hknown, hreply⟩

/-- **Whatever happens, the network stays welcoming.** A node that serves the
newcomer learns it first and then replies, so whoever a reply is from knows it;
all else that happens to a table is an offer of a node. -/
theorem Welcoming.step (h : cluster.Welcoming me known net) (hme : me ∈ cluster.nodes)
    {inFlight : List Request} (hflight : cluster.Asking me inFlight)
    (hstep : cluster.Step me inFlight net net') : cluster.Welcoming me known net' := by
  cases hstep with
  | @served request c context hasked hc hpeer hnode =>
    obtain ⟨x, hx, method, body, hdatagram, rfl⟩ := hflight request hasked
    obtain rfl : x = c := h.address hx.1 hc hpeer
    obtain ⟨context₁, hnode₁, hhosts⟩ := h.node x hx
    cases hnode.symm.trans hnode₁
    have hlearn : cluster.Goes context (context.learn me) := goes_learn context hme
    have hanswer : answer cluster.crypto me.address (framed me.id method body) context
        = HandleRpc.route cluster.crypto (context.learn me) method body := by
      rw [answer_framed, if_pos hdatagram]
    have hgoes := hlearn.trans (goes_route (context.learn me) method body)
    have hupdate := h.update hc hnode hgoes
    rw [hanswer]
    refine ⟨h.address, hupdate.node, hupdate.known, fun p hp => ?_⟩
    rcases List.mem_cons.mp hp with rfl | hp
    · exact ⟨x, hx, rfl, ⟨_, Function.update_self ..,
        (goes_route (context.learn me) method body).heard (hhosts.heard_learn hme)⟩,
        context.learn me, hhosts.goes hlearn, method, body, rfl, rfl⟩
    · exact hupdate.given p hp
  | @arrived c context arrival hc hnode hgenuine =>
    refine h.update hc hnode ?_
    have hmet : cluster.Goes context (context.met arrival.learned) := by
      cases hlearned : arrival.learned with
      | none => exact ⟨rfl, [], fun _ hx => absurd hx List.not_mem_nil, rfl⟩
      | some c' => exact goes_learn context (hgenuine.learned c' hlearned)
    rcases serve_cases (A := RecommendedCloseNodes) cluster.crypto arrival with
      ⟨-, -, hserve⟩ | ⟨id, sender, method, body, -, hserve⟩
    · rw [hserve]
      exact ⟨rfl, [], fun _ hx => absurd hx List.not_mem_nil, rfl⟩
    · rw [hserve]
      exact hmet.trans (goes_route _ method body)
  | @heard c c' context hc hc' hnode => exact h.update hc hnode (goes_learn context hc')

theorem Welcoming.steps (h : cluster.Welcoming me known net) (hme : me ∈ cluster.nodes)
    {inFlight : List Request} (hflight : cluster.Asking me inFlight)
    (hsteps : Relation.ReflTransGen (cluster.Step me inFlight) net net') :
    cluster.Welcoming me known net' := by
  induction hsteps with
  | refl => exact h
  | tail _ hstep ih => exact ih.step hme hflight hstep

/-! ## The newcomer

Its calls complete, as those of clients do. It has heard of some nodes, and of
more after every call. -/

variable (cluster) in
/-- **A newcomer**: its calls complete as the network has it, and its table is
offered nodes meanwhile. -/
structure Newcomer (rpc : Rpc RecommendedCloseNodes (Net RecommendedCloseNodes)) : Prop where
  /-- The newcomer is to be a node. -/
  mem : rpc.myContact ∈ cluster.nodes
  /-- A call in flight completes. -/
  settle : ∀ (world : World RecommendedCloseNodes (Net RecommendedCloseNodes))
    (inFlight : List Request), cluster.Welcoming rpc.myContact ∅ world.net →
      cluster.Asking rpc.myContact inFlight → inFlight ≠ [] →
        cluster.Settles rpc.myContact inFlight world.net (rpc.outside.settle world inFlight).1
            (rpc.outside.settle world inFlight).2.1 (rpc.outside.settle world inFlight).2.2.net
          ∧ cluster.Offered world.table (rpc.outside.settle world inFlight).2.2.table

variable (cluster) in
/-- **Where a newcomer stands**: it has heard of some nodes, first of the seed, and
some of the others know it. -/
structure Joining (me seed : Contact) (heard known : Set Contact)
    (world : World RecommendedCloseNodes (Net RecommendedCloseNodes)) : Prop where
  /-- The network is welcoming. -/
  net : cluster.Welcoming me known world.net
  /-- Its table has heard of some. -/
  table : world.table.Heard {seed} heard me.id
  /-- They are nodes. -/
  subset : heard ⊆ cluster.nodes

variable {rpc : Rpc RecommendedCloseNodes (Net RecommendedCloseNodes)} {seed : Contact}
  {heard : Set Contact} {world : World RecommendedCloseNodes (Net RecommendedCloseNodes)}

/-- **A call completes**: with the reply of a node that knows the newcomer. -/
theorem Newcomer.completes (h : cluster.Newcomer rpc)
    (hjoin : cluster.Joining rpc.myContact seed heard known world) (inFlight : List Request)
    (hflight : cluster.Asking rpc.myContact inFlight) (hne : inFlight ≠ []) :
    ∃ request c context method body heard', heard ⊆ heard'
      ∧ inFlight[(rpc.outside.settle world inFlight).1 % inFlight.length]? = some request
      ∧ c ∈ others cluster.nodes rpc.myContact.id ∧ request.peer = c.address
      ∧ cluster.Hosts rpc.myContact c context
      ∧ request.payload = framed rpc.myContact.id method body
      ∧ (rpc.outside.settle world inFlight).2.1
        = outcome (HandleRpc.route cluster.crypto context method body).1
      ∧ cluster.Joining rpc.myContact seed heard' (insert c known)
          (rpc.outside.settle world inFlight).2.2 := by
  obtain ⟨hsettles, hoffered⟩ := h.settle world inFlight
    (hjoin.net.mono (Set.empty_subset known)) hflight hne
  obtain ⟨request, reply, net₁, hget, hsteps, hmem, hresult, hnet⟩ := hsettles
  have hnet₁ : cluster.Welcoming rpc.myContact known net₁ :=
    (hjoin.net.of_subset (List.filter_subset_self _)).steps h.mem hflight hsteps
  obtain ⟨heard', hsub, hnodes, htable⟩ := hoffered.heard hjoin.table hjoin.subset
  obtain ⟨c, hc, hpeer, hknows, context, hhosts, method, body, hpayload, hreply⟩ :=
    hnet₁.given _ hmem
  refine ⟨request, c, context, method, body, heard', hsub, hget, hc, hpeer, hhosts, hpayload,
    hresult.trans (congrArg outcome hreply), ?_, htable, hnodes⟩
  rw [hnet]
  have hlose := hnet₁.of_subset (l := net₁.onTheWay.erase (request, reply)) List.erase_subset
  refine ⟨hlose.address, hlose.node, fun x hx => ?_, hlose.given⟩
  rcases hx with rfl | hx
  · exact ⟨hc, hknows⟩
  · exact hlose.known x hx

/-- What the newcomer is told is heard. -/
theorem Joining.offer (h : cluster.Joining me seed heard known world) (contacts : List Contact)
    (hnodes : ∀ c ∈ contacts, c ∈ cluster.nodes) :
    cluster.Joining me seed (heard ∪ {c | c ∈ contacts}) known (Rpc.offer contacts world) := by
  have hsub : heard ∪ {c | c ∈ contacts} ⊆ cluster.nodes := Set.union_subset h.subset hnodes
  exact ⟨h.net, h.table.offers contacts (cluster.injOn_id.mono hsub), hsub⟩

theorem asking_request {asked : List Contact}
    (hasked : ∀ c ∈ asked, c ∈ others cluster.nodes rpc.myContact.id) (target : NodeId) :
    cluster.Asking rpc.myContact
      (asked.map (rpc.request .findNode ((serialize target).getD []))) := by
  intro request hrequest
  obtain ⟨c, hc, rfl⟩ := List.mem_map.mp hrequest
  exact ⟨c, hasked c hc, .findNode, _, rfl, rfl⟩

/-- **The next answer to a node query.** -/
theorem Newcomer.next (h : cluster.Newcomer rpc)
    (hjoin : cluster.Joining rpc.myContact seed heard known world) {asked : List Contact}
    (hasked : ∀ c ∈ asked, c ∈ others cluster.nodes rpc.myContact.id) (hne : asked ≠ [])
    (target : NodeId) :
    ∃ contact reply rest world' heard' table, heard ⊆ heard'
      ∧ rpc.next .findNode ((serialize target).getD []) asked world
        = some ((contact, reply), rest, world')
      ∧ Table.Between (others cluster.nodes rpc.myContact.id) cluster.nodes contact.id table
      ∧ Rpc.nodesIn reply = table.closeNodes target
      ∧ cluster.Joining rpc.myContact seed heard' (insert contact known) world' := by
  obtain ⟨request, c, context, method, body, heard', hsub, hget, hc, hpeer, hhosts, hpayload,
    hresult, hjoin'⟩ := h.completes hjoin _ (asking_request hasked target) (by simpa using hne)
  rw [List.length_map, List.getElem?_map, Option.map_eq_some_iff] at hget
  obtain ⟨contact, hget, rfl⟩ := hget
  obtain rfl : contact = c :=
    hjoin.net.address (hasked contact (List.mem_of_getElem? hget)).1 hc.1 hpeer
  obtain ⟨-, rfl, rfl⟩ := framed_inj hpayload
  obtain ⟨table, hbetween, hread⟩ := hhosts.nodesIn_route target
  exact ⟨contact, _, _, _, heard', table, hsub, next_of_outcome hget hresult, hbetween, hread,
    hjoin'⟩

/-! ## Lookups of the newcomer

The same loop as before, with tables that change. Whoever has answered is known
by now to know the newcomer. -/

variable {target : NodeId}

/-- What a node that knows the newcomer answers. -/
def Answered (cluster : Cluster) (me : Contact) (known : Set Contact) (target : NodeId)
    (c : Contact) (contacts : List Contact) : Prop :=
  c ∈ known ∧ ∃ table : Table, table.Between (others cluster.nodes me.id) cluster.nodes c.id
    ∧ contacts = table.closeNodes target

/-- **The loop of a lookup.** The newcomer hears of whomever it is told, and whoever
told it knows it. -/
theorem lookupLoop_attends (h : cluster.Newcomer rpc) (target : NodeId) (rounds : ℕ)
    {st : LookupState}
    (hjoin : cluster.Joining rpc.myContact seed heard known world)
    (hst : st.Attends (others heard rpc.myContact.id)
      (Answered cluster rpc.myContact known target) rpc.myContact.id) :
    ∃ heard' known', heard ⊆ heard' ∧ known ⊆ known'
      ∧ cluster.Joining rpc.myContact seed heard' known' (rpc.lookupLoop target rounds st world).2
      ∧ (rpc.lookupLoop target rounds st world).1.Attends (others heard' rpc.myContact.id)
        (Answered cluster rpc.myContact known' target) rpc.myContact.id := by
  induction rounds generalizing st world heard known with
  | zero => exact ⟨heard, known, Set.Subset.rfl, Set.Subset.rfl, hjoin, hst⟩
  | succ rounds ih =>
    have hfill := hst.fill (alpha - st.inFlight.length)
    have hasked : ∀ c ∈ (st.fill (alpha - st.inFlight.length)).inFlight,
        c ∈ others cluster.nodes rpc.myContact.id := fun c hc =>
      others_mono hjoin.subset _ (hfill.inFlight c hc)
    by_cases hidle : (st.fill (alpha - st.inFlight.length)).inFlight = []
    · have hnone : rpc.next .findNode ((serialize target).getD [])
          (st.fill (alpha - st.inFlight.length)).inFlight world = none :=
        Rpc.next_eq_none_iff.mpr hidle
      unfold Rpc.lookupLoop
      dsimp only
      rw [hnone]
      exact ⟨heard, known, Set.Subset.rfl, Set.Subset.rfl, hjoin, hfill⟩
    · obtain ⟨contact, reply, rest, world', heard₁, table, hsub, hnext, hbetween, hread, hjoin'⟩ :=
        h.next hjoin hasked hidle target
      have hoffer := hjoin'.offer ((table.closeNodes target).filter
        (fun c => c.id != rpc.myContact.id)) fun c hc =>
          (hbetween.mem_closeNodes (List.mem_of_mem_filter hc)).1
      -- whoever is named is heard of, and whoever named them knows the newcomer
      have hgrown : (st.fill (alpha - st.inFlight.length)).Attends
          (others (heard₁ ∪ {c | c ∈ (table.closeNodes target).filter
            (fun c => c.id != rpc.myContact.id)}) rpc.myContact.id)
          (Answered cluster rpc.myContact (insert contact known) target) rpc.myContact.id :=
        hfill.mono (others_mono (hsub.trans Set.subset_union_left) _)
          fun c contacts hc => ⟨Or.inr hc.1, hc.2⟩
      have habsorb := hgrown.absorb (Rpc.next_perm hnext) (table.closeNodes target)
        (fun c hc hne => ⟨Or.inr (List.mem_filter.mpr ⟨hc, bne_iff_ne.mpr hne⟩), hne⟩)
        ⟨Or.inl rfl, table, hbetween, rfl⟩ target
      unfold Rpc.lookupLoop
      dsimp only
      rw [hnext]
      dsimp only
      rw [hread]
      obtain ⟨heard', known', hheard, hknown, hjoin'', hst'⟩ := ih hoffer habsorb
      exact ⟨heard', known', (hsub.trans Set.subset_union_left).trans hheard,
        (Set.subset_insert contact known).trans hknown, hjoin'', hst'⟩

/-- The first of a selection is the nearest. -/
theorem distance_head_le {S : Set NodeId} {i : NodeId} {l : List NodeId}
    (h : Nearest.Selects (fun i => distance i target) K S (i :: l)) {j : NodeId} (hj : j ∈ S) :
    distance i target ≤ distance j target := by
  rcases h.least j hj with hin | ⟨-, hbeyond⟩
  · rcases List.mem_cons.mp hin with rfl | hin
    · exact le_rfl
    · exact ((List.pairwise_cons.mp h.sorted).1 j hin).le
  · exact (hbeyond i List.mem_cons_self).le

variable (cluster) in
/-- **What a lookup of the newcomer comes to.** -/
structure Found (me : Contact) (known : Set Contact) (heard : Set Contact) (target : NodeId)
    (contacts : List Contact) : Prop where
  /-- Those found know the newcomer. -/
  known : ∀ c ∈ contacts, c ∈ known
  /-- Every subtree is covered. -/
  covers : ∀ depth, Covers cluster.nodes heard me.id target depth
  /-- Someone is found, and is in every subtree there is. -/
  head : ∃ c, contacts.head? = some c ∧ ∀ depth,
    (subtree (others cluster.nodes me.id) target depth).Nonempty → depth ≤ sharedPrefix c.id target

/-- **A lookup of the newcomer covers every subtree around its target.** The
lookup asked everyone it returns, and the first of these is the nearest it
heard of; what that one answered was heard. -/
theorem Newcomer.lookupNode (h : cluster.Newcomer rpc)
    (hjoin : cluster.Joining rpc.myContact seed heard known world) (hseed : seed ∈ heard)
    (hself : seed.id ≠ rpc.myContact.id) (target : NodeId) :
    ∃ heard' known', heard ⊆ heard' ∧ known ⊆ known'
      ∧ cluster.Joining rpc.myContact seed heard' known' (rpc.lookupNode target world).2
      ∧ cluster.Found rpc.myContact known' heard' target (rpc.lookupNode target world).1 := by
  obtain ⟨start, hstart, hserved⟩ := hjoin.table.closeNodes
    (Set.singleton_subset_iff.mpr hseed) target
  have hsome : (Rpc.startLookup target world).candidates ≠ [] := by
    intro hnil
    rcases List.take_eq_nil_iff.mp hnil with hK | hnil
    · exact absurd hK (by decide)
    · have hperm := Nearest.sortBy_perm (nearerTo target) (CloseNodes.closeNodes world.table target)
      rw [hnil, hserved] at hperm
      exact hstart.closeNodes_ne_nil (Set.mem_singleton seed) hself hperm.symm.eq_nil
  obtain ⟨heard', known', hheard, hknown, hjoin', hst⟩ :=
    lookupLoop_attends h target (2 ^ idBits + 1) hjoin
      (attends_startLookup fun c hc => hstart.mem_closeNodes (hserved ▸ hc))
  refine ⟨heard', known', hheard, hknown, hjoin', ?_⟩
  obtain ⟨hok, hidle, hqueried⟩ := runLookup_ok rpc target world
  have hanswered : ∀ c ∈ (rpc.runLookup target world).1.candidates, ∃ contacts,
      Answered cluster rpc.myContact known' target c contacts
        ∧ contacts ⊆ (rpc.runLookup target world).1.heard := fun c hc =>
    (hst.answered c (hok.asked c hc (hqueried c hc))).resolve_left
      (by show c ∉ (rpc.runLookup target world).1.inFlight; rw [hidle]; exact List.not_mem_nil)
  -- the nearest of those it heard of, who answered
  obtain ⟨first, hfirst⟩ := List.exists_mem_of_ne_nil _ hsome
  obtain ⟨c, rest, hcands⟩ : ∃ c rest, (rpc.runLookup target world).1.candidates = c :: rest := by
    refine List.exists_cons_of_ne_nil fun hnil => ?_
    have hselects := hok.selects
    rw [hnil] at hselects
    rcases hselects.least first.id (Or.inl ⟨first, hfirst, rfl⟩) with hin | ⟨hfull, -⟩
    · exact absurd hin List.not_mem_nil
    · exact absurd hfull (by decide)
  have hc : c ∈ (rpc.runLookup target world).1.candidates := hcands ▸ List.mem_cons_self
  have hselects := hok.selects
  rw [hcands, List.map_cons] at hselects
  have hcheard := hst.candidates c hc
  obtain ⟨_, ⟨hcknown, table, hbetween, rfl⟩, hsub⟩ := hanswered c hc
  -- all that the lookup heard of, and the newcomer with it
  let noted : Set Contact := {x ∈ others heard' rpc.myContact.id | x.id ∈
    (rpc.runLookup target world).1.known (Rpc.startLookup target world).candidates
      rpc.myContact.id}
  have hnoted : c ∈ noted := ⟨hcheard, hselects.subset c.id List.mem_cons_self⟩
  have hnearest : ∀ x ∈ noted, distance c.id target ≤ distance x.id target := fun x hx =>
    distance_head_le hselects hx.2
  have hanswer : ∀ x ∈ table.closeNodes target, x.id ≠ rpc.myContact.id → x ∈ noted :=
    fun x hx hne => ⟨hst.heard x (hsub hx) hne, Or.inr ⟨⟨x, hsub hx, rfl⟩, hne⟩⟩
  refine ⟨fun x hx => ?_, fun depth => ?_, c, ?_, fun depth hdepth => ?_⟩
  · obtain ⟨contacts, hx, -⟩ := hanswered x hx
    exact hx.1
  · exact (hbetween.covers cluster.injOn_id hnoted hcheard.2 (hjoin'.subset hcheard.1) hnearest
      hanswer depth).mono fun x hx => hx.1.1
  · show (rpc.runLookup target world).1.candidates.head? = some c
    rw [hcands]
    rfl
  · obtain ⟨y, hy⟩ := hdepth
    exact hbetween.mem_subtree_of_answer hnearest hanswer hy

/-- **Lookups one after another** cover the subtrees around all of their targets. -/
theorem Newcomer.lookupAll (h : cluster.Newcomer rpc)
    (hjoin : cluster.Joining rpc.myContact seed heard known world) (hseed : seed ∈ heard)
    (hself : seed.id ≠ rpc.myContact.id) (targets : List NodeId) :
    ∃ heard' known', heard ⊆ heard' ∧ known ⊆ known'
      ∧ cluster.Joining rpc.myContact seed heard' known' (rpc.lookupAll targets world)
      ∧ ∀ t ∈ targets, ∀ depth, Covers cluster.nodes heard' rpc.myContact.id t depth := by
  induction targets generalizing world heard known with
  | nil =>
    exact ⟨heard, known, Set.Subset.rfl, Set.Subset.rfl, hjoin,
      fun _ ht => absurd ht List.not_mem_nil⟩
  | cons t targets ih =>
    obtain ⟨heard₁, known₁, hheard₁, hknown₁, hjoin₁, hfound⟩ := h.lookupNode hjoin hseed hself t
    obtain ⟨heard₂, known₂, hheard₂, hknown₂, hjoin₂, hcovers⟩ := ih hjoin₁ (hheard₁ hseed)
    refine ⟨heard₂, known₂, hheard₁.trans hheard₂, hknown₁.trans hknown₂, hjoin₂, ?_⟩
    exact List.forall_mem_cons.mpr ⟨fun depth => (hfound.covers depth).mono hheard₂, hcovers⟩

/-- **The seed says who it is**, and knows the newcomer. -/
theorem Newcomer.ping (h : cluster.Newcomer rpc)
    (hjoin : cluster.Joining rpc.myContact seed heard known world)
    (hseed : seed ∈ others cluster.nodes rpc.myContact.id) :
    ∃ heard' world', heard ⊆ heard' ∧ rpc.ping seed.address world = (some seed.id, world')
      ∧ cluster.Joining rpc.myContact seed heard' (insert seed known) world' := by
  obtain ⟨request, c, context, method, body, heard', hsub, hget, hc, hpeer, hhosts, hpayload,
    hresult, hjoin'⟩ := h.completes hjoin
      [⟨seed.address, framed rpc.myContact.id .ping []⟩]
      (fun request hr => ⟨seed, hseed, .ping, [], rfl, List.mem_singleton.mp hr⟩)
      (List.cons_ne_nil _ _)
  obtain rfl := List.mem_singleton.mp (List.mem_of_getElem? hget)
  obtain rfl : seed = c := hjoin.net.address hseed.1 hc.1 hpeer
  obtain ⟨-, rfl, rfl⟩ := framed_inj hpayload
  obtain ⟨reply, hreply, hread⟩ := hhosts.route_ping []
  refine ⟨heard', _, hsub, ?_, hjoin'⟩
  rw [hreply] at hresult
  unfold Rpc.ping
  rcases hsettle : rpc.outside.settle world [⟨seed.address, framed rpc.myContact.id .ping []⟩]
    with ⟨i, result, world'⟩
  rw [hsettle] at hresult
  obtain rfl : result = .ok reply := hresult
  unfold framed at hsettle
  rw [hsettle]
  dsimp only
  rw [hread]

end Cluster

/-! ## Complete tables

The range of a bucket is the subtree around any id of it. A refresh looks up
such an id, and so covers the range. -/

/-- **A bucket whose range is covered is complete**: a node of it is there, or the
bucket is full. -/
theorem Covers.placed {nodes heard : Set Contact} {table : Table} {t : NodeId} {depth b : ℕ}
    (h : Covers nodes heard table.myId t depth) (hheard : table.Converged heard)
    (hsub : heard ⊆ nodes)
    (hrange : ∀ z ∈ others nodes table.myId,
      depth ≤ sharedPrefix z.id t ↔ sharedPrefix z.id table.myId = b)
    {x : Contact} (hx : x ∈ others nodes table.myId) (hb : sharedPrefix x.id table.myId = b) :
    x ∈ table.fallback.contactsIter
      ∨ (table.fallback.contacts (table.fallback.bucketIndex x.id)).toList.length = K := by
  rcases h with hall | hmany
  · exact hheard.placed x (hall ⟨hx, (hrange x hx).mpr hb⟩) hx.2
  · refine Or.inr (hheard.full_home hx.2 (hmany.trans (Set.encard_le_encard ?_)))
    rintro _ ⟨z, ⟨hz, hdepth⟩, rfl⟩
    refine ⟨⟨z, hz.1, rfl⟩, ?_⟩
    rw [hb]
    exact (hrange z ⟨hsub hz.1, hz.2⟩).mp hdepth

/-- The range of a bucket is the subtree around an id of it. -/
theorem le_sharedPrefix_iff_of_bucket {t me : NodeId} {z : NodeId} (hz : z ≠ me) :
    sharedPrefix t me + 1 ≤ sharedPrefix z t ↔ sharedPrefix z me = sharedPrefix t me := by
  constructor
  · intro hlt
    rw [sharedPrefix_comm t me]
    exact sharedPrefix_of_lt (by rw [sharedPrefix_comm me t]; exact hlt)
  · intro heq
    have hlt := sharedPrefix_lt_of_eq heq hz
    rw [heq] at hlt
    exact hlt

namespace Cluster

/-- **A node that joins gets a complete table.** The network is one whose nodes
have heard of each other; they go on serving and hearing of each other, and
calls complete in any order. Joining through any of the nodes succeeds. The
nodes it returns know the newcomer, and no node shares a longer prefix with it
than the first of them. Its table then holds other nodes only, and every node
is in its bucket, or the bucket is full.

A bucket is farther than the nearest node found, or it is the nearest node's
own; beyond it there is nobody. The first are refreshed, each by a lookup of an
id in its range, and the last is covered by the lookup of our own id. No
balance is asked for, since less is claimed than that the nearest were
found. -/
theorem joined_is_complete (cluster : Cluster)
    (rpc : Rpc RecommendedCloseNodes (Net RecommendedCloseNodes)) (h : cluster.Newcomer rpc)
    (seed : Contact) (hseed : seed ∈ others cluster.nodes rpc.myContact.id) (random : ℕ → NodeId)
    (world : World RecommendedCloseNodes (Net RecommendedCloseNodes)) (heard : Set Contact)
    (hjoin : cluster.Joining rpc.myContact seed heard ∅ world) :
    ∃ contacts world', rpc.bootstrap seed.address random world = some (.ok contacts, world')
      ∧ (∀ c ∈ contacts, c ∈ others cluster.nodes rpc.myContact.id
        ∧ cluster.Knows rpc.myContact world'.net c)
      ∧ (∃ c, contacts.head? = some c ∧ ∀ x ∈ others cluster.nodes rpc.myContact.id,
        sharedPrefix x.id rpc.myContact.id ≤ sharedPrefix c.id rpc.myContact.id)
      ∧ (∀ c ∈ CloseNodes.contactsIter world'.table, c ∈ others cluster.nodes rpc.myContact.id)
      ∧ (∀ x ∈ others cluster.nodes rpc.myContact.id,
        x ∈ world'.table.inner.fallback.contactsIter
          ∨ (world'.table.inner.fallback.contacts
              (world'.table.inner.fallback.bucketIndex x.id)).toList.length = K) := by
  obtain ⟨heard₀, world₀, -, hping, hjoin₀⟩ := h.ping hjoin hseed
  have hjoin₁ := hjoin₀.offer [seed]
    fun c hc => List.mem_singleton.mp hc ▸ hseed.1
  obtain ⟨heard₂, known₂, hheard₂, -, hjoin₂, hfound⟩ :=
    h.lookupNode hjoin₁ (Or.inr List.mem_cons_self) hseed.2 rpc.myContact.id
  rcases hlookup : rpc.lookupNode rpc.myContact.id (Rpc.offer [seed] world₀) with ⟨contacts, world₂⟩
  rw [hlookup] at hjoin₂ hfound
  obtain ⟨c, hhead, hdeepest⟩ := hfound.head
  obtain ⟨rest, rfl⟩ : ∃ rest, contacts = c :: rest := by
    cases contacts with
    | nil => cases hhead
    | cons c' rest => cases hhead; exact ⟨rest, rfl⟩
  have hmax : ∀ x ∈ others cluster.nodes rpc.myContact.id,
      sharedPrefix x.id rpc.myContact.id ≤ sharedPrefix c.id rpc.myContact.id := fun x hx =>
    hdeepest _ ⟨x, hx, le_rfl⟩
  obtain ⟨targets, hmap, hrefresh⟩ := exists_refreshBuckets rpc random
    (List.range (sharedPrefix c.id rpc.myContact.id))
    (fun bucket hb => (List.mem_range.mp hb).trans_le (sharedPrefix_le _ _)) world₂
  obtain ⟨heard₃, known₃, hheard₃, hknown₃, hjoin₃, hcovers⟩ :=
    h.lookupAll hjoin₂ (hheard₂ (Or.inr List.mem_cons_self)) hseed.2 targets
  have hid := hjoin₃.table.myId
  have hinner := hjoin₃.table.inner
  refine ⟨c :: rest, rpc.lookupAll targets world₂, ?_, fun x hx => ?_, ⟨c, rfl, hmax⟩,
    fun x hx => ?_, fun x hx => ?_⟩
  · unfold Rpc.bootstrap
    rw [hping]
    dsimp only
    rw [if_neg hseed.2, show (⟨seed.id, seed.address⟩ : Contact) = seed from rfl, hlookup]
    dsimp only
    rw [show leadingZeros (xorDistance c.id rpc.myContact.id)
      = sharedPrefix c.id rpc.myContact.id from rfl, hrefresh]
    rfl
  · exact hjoin₃.net.known x (hknown₃ (hfound.known x hx))
  · exact ⟨hjoin₃.subset (hinner.mem_of_held hx), hid ▸ hinner.ok.ne_myId_of_mem hx⟩
  · rw [← hid] at hx hmax
    rcases (hmax x hx).lt_or_eq with hlt | heq
    · -- a bucket farther away than the nearest node: an id of it was looked up
      obtain ⟨t, ht, hshared⟩ : ∃ t ∈ targets, sharedPrefix t rpc.myContact.id
          = sharedPrefix x.id (rpc.lookupAll targets world₂).table.inner.myId := by
        rw [← List.mem_map, hmap, List.mem_range, ← hid]
        exact hlt
      rw [← hid] at hshared
      have hcover := hcovers t ht (sharedPrefix t rpc.myContact.id + 1)
      rw [← hid] at hcover
      refine hcover.placed hinner hjoin₃.subset (fun z hz => ?_) hx hshared.symm
      exact le_sharedPrefix_iff_of_bucket hz.2
    · -- the bucket of the nearest node: our own id was looked up
      have hcover := (hfound.covers (sharedPrefix c.id rpc.myContact.id)).mono hheard₃
      rw [← hid] at hcover
      refine hcover.placed hinner hjoin₃.subset (fun z hz => ?_) hx heq
      exact ⟨fun hle => (hmax z hz).antisymm hle, fun heq => heq.ge⟩

/-! ## Networks to join

A network that serves at once, whose nodes were offered each other, and a
newcomer that has heard of nobody. -/

/-- Whoever calls into a network that serves at once is a newcomer of it. -/
theorem newcomer_prompt {cluster : Cluster} {me : Contact} (hme : me ∈ cluster.nodes)
    (dns : String → Option VerifyingKey) :
    cluster.Newcomer ⟨me, prompt cluster.crypto dns me⟩ := by
  refine ⟨hme, fun world inFlight hnet hflight hne =>
    settles_prompt dns hne fun request hasked => ?_⟩
  obtain ⟨c, hc, method, body, -, rfl⟩ := hflight request hasked
  obtain ⟨context, hnode, -⟩ := hnet.node c hc
  exact ⟨c, hc.1, rfl, context, hnode⟩

/-- A table that was offered nodes. -/
def introduced (id : NodeId) (members : List Contact) : RecommendedCloseNodes :=
  members.foldl CloseNodes.maybeAddContact (recommended id)

/-- It has heard of them. -/
theorem heard_introduced (id : NodeId) {members : List Contact}
    (hids : Set.InjOn Contact.id {c | c ∈ members}) (low : Set Contact) :
    (introduced id members).Heard low {c | c ∈ members} id := by
  have hnew : (recommended id).Heard low ∅ id :=
    ⟨rfl, rfl, Table.converged_nil id, fun _ hp => absurd hp List.not_mem_nil⟩
  have hset : ∅ ∪ {c | c ∈ members} = {c | c ∈ members} := Set.empty_union _
  have hoffers := hnew.offers members (hset.symm ▸ hids)
  rwa [hset] at hoffers

/-- Nodes that have heard of each other. -/
def gathered (members : List Contact) (dns : String → Option VerifyingKey) :
    Net RecommendedCloseNodes where
  nodes address := (members.find? (fun c => c.address = address)).map (fun c =>
    ⟨c.id, introduced c.id members, fun _ => none, dns⟩)
  onTheWay := []
  sent := []

/-- Where a newcomer starts: it has heard of nobody. -/
theorem joining_gathered {cluster : Cluster} {me : Contact} {members : List Contact}
    (hnodes : cluster.nodes = {c | c ∈ me :: members})
    (hnew : me.id ∉ members.map Contact.id)
    (haddress : ((me :: members).map Contact.address).Nodup)
    (dns : String → Option VerifyingKey) (seed : Contact) :
    cluster.Joining me seed ∅ ∅ ⟨recommended me.id, gathered members dns⟩ := by
  have hothers : others cluster.nodes me.id = {c | c ∈ members} := by
    ext c
    rw [hnodes]
    constructor
    · rintro ⟨hc, hne⟩
      exact (List.mem_cons.mp hc).resolve_left fun heq => hne (heq ▸ rfl)
    · intro hc
      exact ⟨List.mem_cons_of_mem me hc, fun heq => hnew (heq ▸ List.mem_map.mpr ⟨c, hc, rfl⟩)⟩
  have hsub : {c | c ∈ members} ⊆ cluster.nodes := fun c hc =>
    (hothers.symm ▸ hc : c ∈ others _ _).1
  refine ⟨⟨?_, fun c hc => ?_, fun _ hx => absurd hx (Set.notMem_empty _),
    fun _ hp => absurd hp List.not_mem_nil⟩, ⟨rfl, rfl, Table.converged_nil me.id,
      fun _ hp => absurd hp List.not_mem_nil⟩, Set.empty_subset _⟩
  · rw [hnodes]
    exact fun _ ha _ hb => List.inj_on_of_nodup_map haddress ha hb
  · have hc' : c ∈ members := by
      rw [hothers] at hc
      exact hc
    refine ⟨_, congrArg (Option.map _) (find?_address (List.nodup_cons.mp haddress).2 hc'),
      rfl, {c | c ∈ members}, hothers.le, hsub, ?_⟩
    exact heard_introduced c.id (cluster.injOn_id.mono hsub) _

end Cluster

/-- A node that is new. -/
def Sample.newcomer : Contact := peer 64 9064

/-- The network with the new node. -/
def Sample.wider : Cluster :=
  network (newcomer :: halves) (by decide +kernel) [] (injOn_hashed (by decide))

/-- The new node joins through another. -/
theorem Cluster.joined_is_complete_sample :
    ∃ contacts world', Rpc.bootstrap
        ⟨Sample.newcomer, Cluster.prompt Sample.crypto (fun _ => none) Sample.newcomer⟩
        (Sample.peer 1 9001).address (fun _ => Sample.newcomer.id)
        ⟨recommended Sample.newcomer.id, Cluster.gathered Sample.halves (fun _ => none)⟩
      = some (.ok contacts, world')
      ∧ ∀ c ∈ contacts, c ∈ others Sample.wider.nodes Sample.newcomer.id
        ∧ Sample.wider.Knows Sample.newcomer world'.net c := by
  obtain ⟨contacts, world', hjoined, hknows, -⟩ := Cluster.joined_is_complete Sample.wider _
    (Cluster.newcomer_prompt (show Sample.newcomer ∈ Sample.wider.nodes from List.mem_cons_self)
      (fun _ => none)) (Sample.peer 1 9001)
    ⟨show _ ∈ Sample.newcomer :: Sample.halves by decide +kernel, by decide +kernel⟩
    (fun _ => Sample.newcomer.id) _ ∅
    (Cluster.joining_gathered rfl (by decide +kernel) (by decide +kernel) (fun _ => none) _)
  exact ⟨contacts, world', hjoined, hknows⟩

end Kademlia
