import Kademlia.SiblingList

/-!
# The answers of the routing table

A node routes with a sibling list of `K` over one bucket of `K` per bit of
an id. Three things are said of this table: that a query answers with the
`K` nearest of all contacts held, that the siblings are the `K` nearest to
our own id, and that a contact pushed out of the siblings is still in a
bucket. Each holds under a condition that this module makes exact, over
every sequence of writes.

A query reads the siblings and the buckets up to some radius around the
target's own. What it leaves unread below the home bucket is never missed,
since everything between is nearer. What it leaves unread above can be
nearer to the target than what it read, and is missed unless `K` others are
nearer still (`Table.Skips`). The siblings stay exact until one is removed
while contacts are held that are not siblings, as nothing moves up from the
buckets (`Table.Keeps`). And a sibling that gives way to a nearer contact is
lost where its bucket had been full when it was offered (`Table.Evicts`).
-/

namespace Kademlia

/-- The table a node routes with, under its cache. -/
abbrev Table := SiblingList (StaticBucket K 0 idBits) K

namespace Table

/-- The table after a sequence of writes, starting empty. -/
def run (myId : NodeId) (ops : List TableOp) : Table :=
  ops.foldl TableOp.apply (SiblingList.new myId (StaticBucket.new myId))

/-- The distinct contacts a table holds. -/
def held (table : Table) : List Contact := table.contactsIter.dedup

theorem mem_held {table : Table} {x : Contact} :
    x ∈ table.held ↔ x ∈ table.contactsIter := List.mem_dedup

theorem run_concat (myId : NodeId) (ops : List TableOp) (op : TableOp) :
    run myId (ops ++ [op]) = op.apply (run myId ops) :=
  SiblingList.run_append myId ops op

/-- **Every reachable table is in order**: `SiblingList.ok_run` at the sizes
a node routes with. -/
theorem ok_run (myId : NodeId) (ops : List TableOp) : (run myId ops).Ok :=
  SiblingList.ok_run myId ops

/-- The reference selects the `K` nearest of what the table holds. -/
theorem selects_held {table : Table} (h : table.Ok) (t : NodeId) :
    Nearest.Selects (fun c => distance c.id t) K {c | c ∈ table.held}
      (DumbBucket.closeNodes ⟨table.held⟩ t) :=
  DumbBucket.selects_closeNodes h.nodup_dedup t

/-! ## What a query misses -/

/-- The contacts a query looks at. -/
def read (table : Table) (t : NodeId) : List Contact :=
  table.fallback.candidates t ++ table.siblings.toList

/-- **A query answers with the `K` nearest of what it looks at**, though the
buckets are truncated before the siblings come in. -/
theorem selects_closeNodes {table : Table} (h : table.Ok) (t : NodeId) :
    Nearest.Selects (fun c => distance c.id t) K {c | c ∈ table.read t}
      (table.closeNodes t) := by
  have hheld : ∀ c ∈ table.fallback.closeNodes t ++ table.siblings.toList,
      c ∈ table.contactsIter := by
    intro c hc
    refine SiblingList.mem_contactsIter.mpr ((List.mem_append.mp hc).symm.imp id (fun hc => ?_))
    exact h.fallback.candidates_subset ((h.fallback.selects_closeNodes t).subset c hc)
  have hset : {c | c ∈ table.read t}
      = {c | c ∈ table.fallback.candidates t} ∪ {c | c ∈ table.siblings.toList} := by
    ext c
    exact List.mem_append
  rw [hset]
  exact SiblingList.selects_merge (h.fallback.selects_closeNodes t)
    (fun a ha b hb => h.eq_of_id (hheld a ha) (hheld b hb))

/-- **A contact the widening stops short of**: not a sibling, in a bucket
above the target's, with `K` contacts in the buckets nearer to the target's
than its own. -/
def Skips (table : Table) (t : NodeId) (x : Contact) : Prop :=
  x ∈ table.fallback.contactsIter ∧ x ∉ table.siblings.toList
    ∧ ∃ gap : ℕ, (table.fallback.bucketIndex x.id : ℕ)
        = table.fallback.bucketIndex t + (gap + 1)
      ∧ K ≤ (table.fallback.within (table.fallback.bucketIndex t) gap).length

/-- The contacts held that are nearer to a target than `x`. -/
def nearer (table : Table) (t : NodeId) (x : Contact) : List Contact :=
  table.held.filter (fun a => distance a.id t < distance x.id t)

/-- A skipped contact is not looked at. -/
theorem Skips.not_mem_read {table : Table} (h : table.Ok) {t : NodeId} {x : Contact}
    (hx : table.Skips t x) : x ∉ table.read t := by
  obtain ⟨hmem, hsib, gap, hgap, hfull⟩ := hx
  intro hread
  refine absurd (List.mem_append.mp hread) (not_or.mpr ⟨fun hc => ?_, hsib⟩)
  exact absurd ((h.fallback.mem_candidates_iff hmem (Or.inl hgap)).mp hc) (not_lt.mpr hfull)

/-- **Nothing is missed below the home bucket**: a contact there that is not
looked at has `K` others nearer. -/
theorem le_length_nearer_of_below {table : Table} (h : table.Ok) {t : NodeId} {x : Contact}
    (hx : x ∈ table.fallback.contactsIter) {gap : ℕ}
    (hgap : (table.fallback.bucketIndex t : ℕ)
      = table.fallback.bucketIndex x.id + (gap + 1))
    (hfull : K ≤ (table.fallback.within (table.fallback.bucketIndex t) gap).length) :
    K ≤ (table.nearer t x).length := by
  have hne : ∀ y ∈ table.fallback.contactsIter, y.id ≠ table.fallback.myId := fun y hy =>
    h.myId ▸ h.ne_myId_of_mem (SiblingList.mem_contactsIter.mpr (Or.inr hy))
  refine hfull.trans (List.Nodup.subperm
    (List.Nodup.of_map _ (h.fallback.nodup_within _ gap)) (fun y hy => ?_)).length_le
  obtain ⟨hmem, hlo, -⟩ := h.fallback.mem_within_iff.mp hy
  refine List.mem_filter.mpr ⟨mem_held.mpr (SiblingList.mem_contactsIter.mpr (Or.inr hmem)), ?_⟩
  refine decide_eq_true (StaticBucket.distance_lt_of_bucket_lt table.fallback (hne x hx)
    (hne y hmem) ?_ ?_)
  · exact Fin.lt_def.mpr (by omega)
  · exact Fin.lt_def.mpr (by omega)

/-- A contact held that is not looked at is skipped, or has `K` others
nearer. -/
theorem skips_or_le_length_nearer {table : Table} (h : table.Ok) {t : NodeId} {x : Contact}
    (hx : x ∈ table.held) (hread : x ∉ table.read t) :
    table.Skips t x ∨ K ≤ (table.nearer t x).length := by
  have hsib : x ∉ table.siblings.toList := fun hs => hread (List.mem_append_right _ hs)
  have hcand : x ∉ table.fallback.candidates t := fun hc => hread (List.mem_append_left _ hc)
  have hmem := (SiblingList.mem_contactsIter.mp (mem_held.mp hx)).resolve_left hsib
  have hfull : ∀ gap : ℕ, ((table.fallback.bucketIndex x.id : ℕ)
        = table.fallback.bucketIndex t + (gap + 1)
      ∨ (table.fallback.bucketIndex t : ℕ) = table.fallback.bucketIndex x.id + (gap + 1)) →
      K ≤ (table.fallback.within (table.fallback.bucketIndex t) gap).length := fun gap hgap =>
    not_lt.mp (fun hlt => hcand ((h.fallback.mem_candidates_iff hmem hgap).mpr hlt))
  rcases lt_trichotomy (table.fallback.bucketIndex x.id : ℕ) (table.fallback.bucketIndex t)
    with hlt | heq | hgt
  · obtain ⟨gap, hgap⟩ := Nat.exists_eq_add_of_lt hlt
    exact Or.inr (le_length_nearer_of_below h hmem hgap (hfull gap (Or.inr hgap)))
  · exact absurd (h.fallback.mem_candidates_of_home hmem (Fin.ext heq)) hcand
  · obtain ⟨gap, hgap⟩ := Nat.exists_eq_add_of_lt hgt
    exact Or.inl ⟨hmem, hsib, gap, hgap, hfull gap (Or.inl hgap)⟩

/-- **When the answer is the reference's.** After any writes, a query answers
with the `K` nearest of all contacts held exactly when every contact the
widening stops short of has `K` others nearer to the target.

What a query looks at is a part of what is held, and it selects the nearest of
that part, so the question is only what it does not look at
(`Nearest.Selects.eq_iff_of_subset`). Siblings and the home bucket are always
looked at. A contact below the home bucket that is not looked at has `K`
candidates in nearer buckets and so `K` others nearer
(`le_length_nearer_of_below`). What is left are the contacts above the home
bucket, and for these nothing follows from the order of the buckets: the target
can be nearer to them than to what was read. -/
theorem closeNodes_eq_reference_iff (myId : NodeId) (ops : List TableOp) (t : NodeId) :
    (run myId ops).closeNodes t = DumbBucket.closeNodes ⟨(run myId ops).held⟩ t
      ↔ ∀ x, (run myId ops).Skips t x → K ≤ ((run myId ops).nearer t x).length := by
  have h := ok_run myId ops
  have hsub : {c | c ∈ (run myId ops).read t} ⊆ {c | c ∈ (run myId ops).held} := by
    intro c hc
    refine mem_held.mpr (SiblingList.mem_contactsIter.mpr
      ((List.mem_append.mp hc).symm.imp id (fun hc => h.fallback.candidates_subset hc)))
  rw [Nearest.Selects.eq_iff_of_subset (List.nodup_dedup _) (selects_held h t) hsub
    (selects_closeNodes h t)]
  constructor
  · intro hall x hx
    exact hall x (mem_held.mpr (SiblingList.mem_contactsIter.mpr (Or.inr hx.1)))
      (hx.not_mem_read h)
  · intro hall x hx hread
    exact (skips_or_le_length_nearer h hx hread).elim (hall x) id

/-- The contact whose id is a byte followed by zeros. -/
def contact (firstByte : UInt8) (port : UInt16) : Contact :=
  ⟨⟨firstByte :: List.replicate 31 0, rfl⟩, .v4 ⟨[127, 0, 0, 1], rfl⟩ port⟩

/-- Offers of contacts, told by their first byte. -/
def offers (firstBytes : List UInt8) : List TableOp :=
  firstBytes.map (fun b => .maybeAdd (contact b 1000))

/-- **The widening can stop too early.** Around the id zero, `0x40`–`0x49`
fill bucket 1, `0x20` is alone in bucket 2 and `0x10`–`0x19` fill bucket 3.
A query for `0xa0` starts in the empty bucket 0 and has `K` candidates after
bucket 1, and so never reads `0x20`, the nearest contact held. -/
theorem closeNodes_misses_nearest :
    (run (contact 0 0).id (offers [0x40, 0x41, 0x42, 0x43, 0x44, 0x45, 0x46, 0x47, 0x48,
        0x49, 0x20, 0x10, 0x11, 0x12, 0x13, 0x14, 0x15, 0x16, 0x17, 0x18, 0x19])).closeNodes
        (contact 0xa0 0).id
      ≠ DumbBucket.closeNodes ⟨(run (contact 0 0).id (offers [0x40, 0x41, 0x42, 0x43, 0x44,
          0x45, 0x46, 0x47, 0x48, 0x49, 0x20, 0x10, 0x11, 0x12, 0x13, 0x14, 0x15, 0x16, 0x17,
          0x18, 0x19])).held⟩ (contact 0xa0 0).id := by
  decide +kernel

/-! ## When the siblings are exact

The siblings are meant to be the `K` nearest of all contacts held. Offers keep
them so, as every contact that comes in anywhere is offered to the siblings
too. A removal may not: the gap a sibling leaves is not filled from the
buckets. -/

/-- **The siblings are the `K` contacts held that are nearest to our own
id**, as the reference would answer. -/
def Exact (table : Table) : Prop :=
  table.siblings.toList = DumbBucket.closeNodes ⟨table.held⟩ table.myId

instance (table : Table) : Decidable table.Exact := inferInstanceAs (Decidable (_ = _))

/-- **The writes that keep the siblings exact**: every offer, and the removal
of a sibling only while all contacts held are siblings. -/
def Keeps (table : Table) : TableOp → Prop
  | .maybeAdd _ => True
  | .remove c => c ∈ table.siblings.toList →
      ∀ x ∈ table.contactsIter, x ∈ table.siblings.toList

theorem exact_iff {table : Table} (h : table.Ok) :
    table.Exact ↔ Nearest.Selects (fun c => distance c.id table.myId) K
      {c | c ∈ table.contactsIter} table.siblings.toList := by
  have hsel := selects_held h table.myId
  have hset : {c | c ∈ table.held} = {c | c ∈ table.contactsIter} := by
    ext c
    exact mem_held
  rw [hset] at hsel
  refine ⟨fun he => ?_, fun hs => hs.unique hsel⟩
  unfold Exact at he
  rwa [← he] at hsel

/-- **An offer keeps the siblings exact.** A refresh changes addresses only,
and distances are between ids. A new contact is inserted in order, which
selects from what was held and the contact; and what a table holds afterwards
is no more than that. -/
theorem Exact.maybeAddContact {table : Table} (h : table.Ok) (he : table.Exact) (c : Contact) :
    Exact (table.maybeAddContact c) := by
  by_cases hc : c.id = table.myId
  · rw [SiblingList.maybeAddContact_of_myId table hc]
    exact he
  · rw [exact_iff h] at he
    rw [exact_iff (h.maybeAddContact c), SiblingList.maybeAddContact_myId]
    have hin : ∀ x ∈ (table.maybeAddContact c).siblings.toList,
        x ∈ (table.maybeAddContact c).contactsIter := fun x hx =>
      SiblingList.mem_contactsIter.mpr (Or.inl hx)
    by_cases hk : c.id ∈ table.siblings.toList.map Contact.id
    · -- a refresh keeps every distance, and the length
      obtain ⟨known, hknown, hid⟩ := List.mem_map.mp hk
      have hmem := fun x => mem_refresh h.nodup_siblings hk x
      rw [← SiblingList.siblings_of_known table hc hk] at hmem
      have hlen : (table.maybeAddContact c).siblings.toList.length
          = table.siblings.toList.length := by
        rw [SiblingList.siblings_of_known table hc hk]
        exact BoundedVec.length_modifyFirstIn ..
      refine ⟨h.sorted_maybeAddContact hc, hin, (table.maybeAddContact c).siblings.length_le,
        fun a ha => ?_⟩
      rcases h.mem_contactsIter_of_maybeAddContact hc ha with rfl | ⟨ha, hne⟩
      · exact Or.inl ((hmem a).mpr (Or.inl rfl))
      · refine (he.least a ha).imp (fun hs => (hmem a).mpr (Or.inr ⟨hs, hne⟩))
          (fun hout => ⟨hlen.trans hout.1, fun b hb => ?_⟩)
        rcases (hmem b).mp hb with rfl | hb
        · have hlt := hout.2 known hknown
          rwa [hid] at hlt
        · exact hout.2 b hb.1
    · have hins := he.insert (c := c) (fun a ha hd =>
        hk (List.mem_map.mpr ⟨a, ha, distance_injective table.myId hd⟩))
      have hsib := SiblingList.siblings_of_unknown table hc hk
      unfold SiblingList.inOrder at hsib
      rw [← hsib] at hins
      exact hins.of_subset (fun x hx =>
        (h.mem_contactsIter_of_maybeAddContact hc hx).symm.imp And.left id) hin

/-- **A removal keeps the siblings exact under the condition, and only
then**: a sibling that goes leaves a gap that nothing held moves into. -/
theorem Exact.removeContact_iff {table : Table} (h : table.Ok) (he : table.Exact)
    (c : Contact) : Exact (table.removeContact c) ↔ table.Keeps (.remove c) := by
  rw [exact_iff h] at he
  rw [exact_iff (h.removeContact c), SiblingList.siblings_removeContact]
  have hsub : {x | x ∈ (table.removeContact c).contactsIter}
      ⊆ {x | x ∈ table.contactsIter} := fun x hx =>
    ((h.mem_contactsIter_removeContact c x).mp hx).1
  constructor
  · intro he' hc x hx
    by_contra hxs
    have hne : x ≠ c := fun hxc => hxs (hxc ▸ hc)
    have hfull := ((he'.least x ((h.mem_contactsIter_removeContact c x).mpr
      ⟨hx, hne⟩)).resolve_left (fun hx => hxs (List.mem_of_mem_erase hx))).1
    have hpos := List.length_pos_of_mem hc
    have := table.siblings.length_le
    rw [List.length_erase_of_mem hc] at hfull
    omega
  · intro hkeep
    by_cases hc : c ∈ table.siblings.toList
    · have hall := hkeep hc
      refine ⟨he.sorted.sublist List.erase_sublist, fun x hx => ?_,
        List.length_erase_le.trans he.length_le, fun x hx => Or.inl ?_⟩
      · exact SiblingList.mem_contactsIter.mpr
          (Or.inl (by rw [SiblingList.siblings_removeContact]; exact hx))
      · obtain ⟨hx, hne⟩ := (h.mem_contactsIter_removeContact c x).mp hx
        exact (List.mem_erase_of_ne hne).mpr (hall x hx)
    · rw [List.erase_of_not_mem hc]
      refine he.of_subset hsub (fun x hx => (h.mem_contactsIter_removeContact c x).mpr ?_)
      exact ⟨he.subset x hx, fun hxc => hc (hxc ▸ hx)⟩

theorem Exact.apply_iff {table : Table} (h : table.Ok) (he : table.Exact) (op : TableOp) :
    Exact (op.apply table) ↔ table.Keeps op := by
  cases op with
  | maybeAdd c => exact ⟨fun _ => trivial, fun _ => he.maybeAddContact h c⟩
  | remove c => exact he.removeContact_iff h c

theorem exact_nil (myId : NodeId) : (run myId []).Exact := by
  rw [exact_iff (ok_run myId [])]
  refine ⟨List.Pairwise.nil, fun _ hc => absurd hc List.not_mem_nil, Nat.zero_le K, ?_⟩
  intro c hc
  obtain ⟨i, hi⟩ := StaticBucket.mem_contactsIter.mp
    ((SiblingList.mem_contactsIter.mp hc).resolve_left List.not_mem_nil)
  exact absurd hi List.not_mem_nil

/-- **When the siblings are exact in every state of a run**: when every write
of it keeps them exact. Offers always do, so this is a condition on the
removals: a sibling may be removed only while every contact held is a sibling.

An exact state stays exact by a write exactly if the write keeps it
(`Exact.apply_iff`), and the empty table is exact, so the two sides follow each
other along the prefixes of the run. The condition is asked of every prefix,
and not of the last state, because siblings that are no longer exact can become
exact again, by further offers or when the contacts that should have moved up
are removed. -/
theorem exact_run_iff (myId : NodeId) (ops : List TableOp) :
    (∀ before, before <+: ops → (run myId before).Exact)
      ↔ ∀ before op, before ++ [op] <+: ops → (run myId before).Keeps op := by
  constructor
  · intro hex before op hpre
    have hnow := hex before ((List.prefix_append _ _).trans hpre)
    have hnext := hex _ hpre
    rw [run_concat] at hnext
    exact (hnow.apply_iff (ok_run myId before) op).mp hnext
  · intro hkeep before
    induction before using List.reverseRecOn with
    | nil => exact fun _ => exact_nil myId
    | append_singleton before op ih =>
      intro hpre
      have hnow := ih ((List.prefix_append _ _).trans hpre)
      rw [run_concat]
      exact (hnow.apply_iff (ok_run myId before) op).mpr (hkeep before op hpre)

/-- **A removed sibling is not replaced.** Of eleven contacts offered, the
nearest goes, and the eleventh stays in its bucket beside nine siblings. -/
theorem not_exact_after_removal :
    ¬ (run (contact 0 0).id (offers [1, 2, 3, 4, 5, 6, 7, 8, 9, 10, 11]
      ++ [.remove (contact 1 1000)])).Exact := by
  decide +kernel

/-! ## What an offer loses

A contact is held in the bucket of its id, among the siblings, or in both.
Where the bucket was full when it was offered it is held as a sibling only, and
then a nearer contact that pushes it out of the siblings pushes it out of the
table. -/

/-- The ids a table holds. -/
def ids (table : Table) : List NodeId := table.contactsIter.map Contact.id

/-- **An offer that loses a contact**: its id is not our own, it is new among
full siblings and nearer than the last of them, and that last one is in no
bucket. -/
def Evicts (table : Table) (c : Contact) : Prop :=
  c.id ≠ table.myId ∧ c.id ∉ table.siblings.toList.map Contact.id
    ∧ table.siblings.toList.length = K
    ∧ ∃ last ∈ table.siblings.toList.getLast?,
        distance c.id table.myId < distance last.id table.myId
        ∧ last.id ∉ table.fallback.contactsIter.map Contact.id

theorem mem_ids {table : Table} {i : NodeId} : i ∈ table.ids
    ↔ i ∈ table.siblings.toList.map Contact.id
      ∨ i ∈ table.fallback.contactsIter.map Contact.id := by
  unfold ids SiblingList.contactsIter
  rw [List.map_append, List.mem_append]
  rfl

/-- The buckets lose nothing by an offer. -/
theorem mem_fallback_ids_maybeAddContact {table : Table} (h : table.Ok) {c : Contact}
    (hc : c.id ≠ table.myId) {i : NodeId} (hne : i ≠ c.id) :
    i ∈ (table.maybeAddContact c).fallback.contactsIter.map Contact.id
      ↔ i ∈ table.fallback.contactsIter.map Contact.id := by
  have hmem := StaticBucket.mem_contactsIter_maybeAddContact h.fallback (h.myId ▸ hc)
  rw [SiblingList.maybeAddContact_fallback table hc, List.mem_map, List.mem_map]
  constructor
  · rintro ⟨x, hx, rfl⟩
    exact ⟨x, (((hmem x).mp hx).resolve_left (fun hx => hne (by rw [hx.1]))).1, rfl⟩
  · rintro ⟨x, hx, rfl⟩
    exact ⟨x, (hmem x).mpr (Or.inr ⟨hx, hne⟩), rfl⟩

/-- The contact offered is held afterwards if it was held before. -/
theorem mem_ids_self_maybeAddContact {table : Table} (h : table.Ok) {c : Contact}
    (hc : c.id ≠ table.myId) (hi : c.id ∈ table.ids) :
    c.id ∈ ids (table.maybeAddContact c) := by
  rw [mem_ids] at hi ⊢
  rcases hi with hi | hi
  · left
    rwa [SiblingList.siblings_of_known table hc hi, map_id_refresh]
  · right
    rw [SiblingList.maybeAddContact_fallback table hc]
    exact List.mem_map.mpr ⟨c, (StaticBucket.mem_contactsIter_maybeAddContact h.fallback
      (h.myId ▸ hc) c).mpr (Or.inl ⟨rfl, Or.inl hi⟩), rfl⟩

/-- **Which sibling an offer pushes out**: the last of a full list, by a new
contact that is nearer. A known contact is refreshed in place, and with room
for one more nobody has to go. -/
theorem siblings_lost_iff {table : Table} (h : table.Ok) {c x : Contact}
    (hc : c.id ≠ table.myId) (hx : x ∈ table.siblings.toList) :
    x.id ∉ (table.maybeAddContact c).siblings.toList.map Contact.id
      ↔ c.id ∉ table.siblings.toList.map Contact.id ∧ table.siblings.toList.length = K
        ∧ x ∈ table.siblings.toList.getLast?
        ∧ distance c.id table.myId < distance x.id table.myId := by
  have hxi : x.id ∈ table.siblings.toList.map Contact.id := List.mem_map.mpr ⟨x, hx, rfl⟩
  by_cases hk : c.id ∈ table.siblings.toList.map Contact.id
  · rw [SiblingList.siblings_of_known table hc hk, map_id_refresh]
    exact ⟨fun hn => absurd hxi hn, fun hn => absurd hk hn.1⟩
  · have hsub : ∀ y ∈ table.siblings.toList, y ∈ SiblingList.inOrder table.myId c
        table.siblings.toList := fun y hy => SiblingList.mem_inOrder.mpr (Or.inr hy)
    rw [SiblingList.siblings_of_unknown table hc hk, and_iff_right hk]
    by_cases hfull : table.siblings.toList.length = K
    swap
    · -- there is room for everything
      have hle := table.siblings.length_le
      rw [List.take_of_length_le (by rw [SiblingList.length_inOrder]; omega)]
      exact ⟨fun hn => absurd (List.mem_map.mpr ⟨x, hsub x hx, rfl⟩) hn,
        fun hn => absurd hn.1 hfull⟩
    · rw [and_iff_right hfull]
      obtain ⟨init, last, hsib⟩ := List.eq_nil_or_concat'
        table.siblings.toList |>.resolve_left (List.ne_nil_of_mem hx)
      have hsorted := h.sorted
      rw [hsib] at hx hk hfull hsorted ⊢
      rw [List.length_append, List.length_singleton] at hfull
      have htake := SiblingList.take_inOrder hsorted hk
      rw [hfull] at htake
      rw [List.getLast?_concat, Option.mem_some_iff, htake]
      split
      · -- the contact goes in before the last, which is cut off
        next hlt =>
        constructor
        · intro hn
          rcases List.mem_append.mp hx with hx | hx
          · exact absurd (List.mem_map.mpr ⟨x, SiblingList.mem_inOrder.mpr (Or.inr hx), rfl⟩) hn
          · rw [List.mem_singleton.mp hx]
            exact ⟨rfl, hlt⟩
        · rintro ⟨rfl, -⟩ hn
          obtain ⟨y, hy, hyi⟩ := List.mem_map.mp hn
          rcases SiblingList.mem_inOrder.mp hy with rfl | hy
          · exact hk (List.mem_map.mpr ⟨last, hx, hyi.symm⟩)
          · have hbefore := (List.pairwise_append.mp hsorted).2.2 y hy last List.mem_cons_self
            rw [hyi] at hbefore
            exact lt_irrefl _ hbefore
      · -- the contact is cut off itself
        next hlt =>
        constructor
        · exact fun hn => absurd (List.mem_map.mpr ⟨x, hx, rfl⟩) hn
        · rintro ⟨rfl, hlt'⟩
          exact absurd hlt' hlt

/-- **An offer that loses an id pushes out a sibling** that is in no bucket. -/
theorem evicts_of_lost {table : Table} (h : table.Ok) {c : Contact} {i : NodeId}
    (hi : i ∈ table.ids) (hlost : i ∉ ids (table.maybeAddContact c)) : table.Evicts c := by
  have hc : c.id ≠ table.myId := by
    intro hc
    rw [SiblingList.maybeAddContact_of_myId table hc] at hlost
    exact hlost hi
  have hic : i ≠ c.id := fun hic => hlost (hic ▸ mem_ids_self_maybeAddContact h hc (hic ▸ hi))
  rw [mem_ids, mem_fallback_ids_maybeAddContact h hc hic] at hlost
  obtain ⟨hsib, hfb⟩ := not_or.mp hlost
  obtain ⟨x, hx, rfl⟩ := List.mem_map.mp ((mem_ids.mp hi).resolve_right hfb)
  obtain ⟨hk, hfull, hlast, hlt⟩ := (siblings_lost_iff h hc hx).mp hsib
  exact ⟨hc, hk, hfull, x, hlast, hlt, hfb⟩

/-- The siblings stay full where one is pushed out. -/
theorem length_siblings_of_evicts {table : Table} {c : Contact} (h : table.Evicts c) :
    (table.maybeAddContact c).siblings.toList.length = K := by
  obtain ⟨hc, hk, hfull, -⟩ := h
  rw [SiblingList.siblings_of_unknown table hc hk, List.length_take, SiblingList.length_inOrder,
    hfull]
  omega

/-- **When an offer loses nothing**: exactly when it does not push out a
sibling that is in no bucket. The buckets never lose an id by an offer, since a
full bucket keeps what it has. So an id that is lost was lost by the siblings,
and was in no bucket; and the one sibling that an offer can push out is the
last of a full list. -/
theorem ids_subset_maybeAddContact_iff (myId : NodeId) (ops : List TableOp) (c : Contact) :
    (∀ i ∈ (run myId ops).ids, i ∈ ids ((run myId ops).maybeAddContact c))
      ↔ ¬ (run myId ops).Evicts c := by
  have h := ok_run myId ops
  generalize run myId ops = table at h ⊢
  constructor
  · rintro hall ⟨hc, hk, hfull, last, hlast, hlt, hnot⟩
    have hmem : last ∈ table.siblings.toList := List.mem_of_mem_getLast? hlast
    have hne : last.id ≠ c.id := fun he => hk (List.mem_map.mpr ⟨last, hmem, he⟩)
    have hafter := mem_ids.mp (hall last.id
      (mem_ids.mpr (Or.inl (List.mem_map.mpr ⟨last, hmem, rfl⟩))))
    rw [mem_fallback_ids_maybeAddContact h hc hne] at hafter
    exact (siblings_lost_iff h hc hmem).mpr ⟨hk, hfull, hlast, hlt⟩
      (hafter.resolve_right hnot)
  · exact fun hev i hi => by_contra (fun hlost => hev (evicts_of_lost h hi hlost))

/-- **An offer can lose a contact.** Around the id zero, `0x80`–`0x88` and
`0xff` fill bucket 0, and `0x90` is a sibling only; `0x89` pushes it out. -/
theorem maybeAddContact_loses_sibling :
    ¬ ∀ i ∈ (run (contact 0 0).id (offers [0x80, 0x81, 0x82, 0x83, 0x84, 0x85, 0x86, 0x87,
        0x88, 0xff, 0x90])).ids,
      i ∈ ids ((run (contact 0 0).id (offers [0x80, 0x81, 0x82, 0x83, 0x84, 0x85, 0x86, 0x87,
        0x88, 0xff, 0x90])).maybeAddContact (contact 0x89 1000)) :=
  fun hall => absurd (hall (contact 0x90 1000).id (by decide +kernel)) (by decide +kernel)

end Table

end Kademlia
