import Kademlia.CloseNodes

/-!
# The bucket table

Contacts are kept in a fixed array of buckets, indexed by how many leading
bits an id shares with the table's own: bucket `0` holds the far half of the
id space and the last bucket the nearest sliver. A full bucket keeps what it
has.

A query reads the target's home bucket and widens one bucket at a time in
both directions until it has `K` candidates or has read everything, and then
sorts. After `r` rounds it has read the buckets at most `r` away from the
home bucket (`within`), and it stops at the first `r` where these hold `K`
contacts (`exists_candidates_eq`). Nothing below the home bucket is missed by that:
a contact there is farther from the target than everything in a bucket
between (`distance_lt_of_bucket_lt`).
-/

namespace Kademlia

/-- A table of `maxBuckets` buckets of at most `bucketSize` contacts each;
`searchShift` throws prefix lengths together. -/
structure StaticBucket (bucketSize searchShift maxBuckets : ℕ) where
  /-- The buckets. -/
  contacts : Fin maxBuckets → BoundedVec Contact bucketSize
  /-- The id the table is built around. -/
  myId : NodeId

namespace StaticBucket

variable {B H M : ℕ}

/-- An empty table. -/
def new (myId : NodeId) : StaticBucket B H M := ⟨fun _ => BoundedVec.new, myId⟩

/-- Put a bucket in place. -/
def setBucket (table : StaticBucket B H M) (i : Fin M) (bucket : BoundedVec Contact B) :
    StaticBucket B H M :=
  { table with contacts := Function.update table.contacts i bucket }

/-- The contacts of a bucket, by index. -/
def bucket (table : StaticBucket B H M) (index : ℕ) : List Contact :=
  if h : index < M then (table.contacts ⟨index, h⟩).toList else []

/-- One bucket after another. -/
def contactsIter (table : StaticBucket B H M) : List Contact :=
  (List.finRange M).flatMap (fun i => (table.contacts i).toList)

/-- Read one bucket more. -/
def extendFromBucket (table : StaticBucket B H M) (out : List Contact) (index : ℕ) :
    List Contact := out ++ table.bucket index

variable [NeZero M]

/-- The bucket an id lives in: how many leading bits it shares with the
table's own id, shifted down, the longest prefixes clamped into the last
bucket. -/
def bucketIndex (table : StaticBucket B H M) (id : NodeId) : Fin M :=
  ⟨min (leadingZeros (xorDistance id table.myId) >>> H) (M - 1),
    (min_le_right _ _).trans_lt (Nat.sub_lt (NeZero.pos M) Nat.one_pos)⟩

/-- The widening loop, `low` and `high` being the ends of what has been read.
Every round moves one of the ends, so `M` rounds are enough. -/
def widen (table : StaticBucket B H M) : ℕ → ℕ → ℕ → List Contact → List Contact
  | 0, _, _, out => out
  | rounds + 1, low, high, out =>
    if out.length < K ∧ (0 < low ∨ high + 1 < M) then
      let (high, out) := if high + 1 < M
        then (high + 1, table.extendFromBucket out (high + 1)) else (high, out)
      let (low, out) := if 0 < low
        then (low - 1, table.extendFromBucket out (low - 1)) else (low, out)
      table.widen rounds low high out
    else out

/-- The candidates a query collects before it sorts. -/
def candidates (table : StaticBucket B H M) (id : NodeId) : List Contact :=
  let home := (table.bucketIndex id : ℕ)
  table.widen M home home (table.extendFromBucket [] home)

/-- Collect candidates outwards from the home bucket, sort them by distance
and keep the first `K`. -/
def closeNodes (table : StaticBucket B H M) (id : NodeId) : List Contact :=
  (Nearest.sortBy (nearerTo id) (table.candidates id)).take K

/-- Offer a contact: a known one is refreshed, a new one appended if its
bucket has room, and our own id is ignored. -/
def maybeAddContact (table : StaticBucket B H M) (contact : Contact) :
    StaticBucket B H M :=
  if contact.id = table.myId then table
  else
    let i := table.bucketIndex contact.id
    let bucket := table.contacts i
    if knows bucket contact then table.setBucket i (refresh bucket contact)
    else table.setBucket i (bucket.push contact)

/-- Drop a contact from its bucket, if it is held at exactly that address. -/
def removeContact (table : StaticBucket B H M) (contact : Contact) :
    StaticBucket B H M :=
  let i := table.bucketIndex contact.id
  match (table.contacts i).toList.idxOf? contact with
  | some j => table.setBucket i ((table.contacts i).swapRemove j)
  | none => table

instance : CloseNodes (StaticBucket B H M) where
  closeNodes := closeNodes
  maybeAddContact := maybeAddContact
  removeContact := removeContact
  contactsIter := contactsIter

/-! ## What the table holds -/

omit [NeZero M] in
theorem mem_contactsIter {table : StaticBucket B H M} {c : Contact} :
    c ∈ table.contactsIter ↔ ∃ i, c ∈ (table.contacts i).toList := by
  unfold contactsIter
  rw [List.mem_flatMap]
  exact exists_congr (fun i => and_iff_right (List.mem_finRange i))

/-- **Every contact is in the bucket of its id**, no id is held twice, and
our own id is not held. -/
structure Ok (table : StaticBucket B H M) : Prop where
  /-- A contact sits in the bucket of its id. -/
  placed : ∀ i, ∀ c ∈ (table.contacts i).toList, table.bucketIndex c.id = i
  /-- A bucket holds an id at most once. -/
  nodup : ∀ i, ((table.contacts i).toList.map Contact.id).Nodup
  /-- Our own id is not a contact. -/
  ne_myId : ∀ i, ∀ c ∈ (table.contacts i).toList, c.id ≠ table.myId

theorem ok_new (myId : NodeId) : (new myId : StaticBucket B H M).Ok :=
  ⟨fun _ _ hc => absurd hc List.not_mem_nil, fun _ => List.nodup_nil,
    fun _ _ hc => absurd hc List.not_mem_nil⟩

/-- Within the table, an id names one contact. -/
theorem Ok.eq_of_id {table : StaticBucket B H M} (h : table.Ok) {a b : Contact}
    (ha : a ∈ table.contactsIter) (hb : b ∈ table.contactsIter) (hid : a.id = b.id) :
    a = b := by
  obtain ⟨i, hai⟩ := mem_contactsIter.mp ha
  obtain ⟨j, hbj⟩ := mem_contactsIter.mp hb
  have hij : i = j := by rw [← h.placed i a hai, ← h.placed j b hbj, hid]
  subst hij
  exact List.inj_on_of_nodup_map (h.nodup i) hai hbj hid

/-- The walk over the table repeats no id. -/
theorem Ok.nodup_contactsIter {table : StaticBucket B H M} (h : table.Ok) :
    (table.contactsIter.map Contact.id).Nodup := by
  unfold contactsIter
  rw [List.map_flatMap, List.nodup_flatMap]
  refine ⟨fun i _ => h.nodup i, ?_⟩
  refine (List.nodup_finRange M).imp (fun {i j} hij => ?_)
  rw [Function.onFun, List.disjoint_left]
  intro id hi hj
  obtain ⟨a, ha, hai⟩ := List.mem_map.mp hi
  obtain ⟨b, hb, hbi⟩ := List.mem_map.mp hj
  exact hij (by rw [← h.placed i a ha, ← h.placed j b hb, hai, hbi])

/-- Whether an offered contact ends up in the table: its id is held already,
or its bucket has room. -/
def Admits (table : StaticBucket B H M) (c : Contact) : Prop :=
  c.id ∈ table.contactsIter.map Contact.id
    ∨ (table.contacts (table.bucketIndex c.id)).toList.length < B

omit [NeZero M] in
@[simp] theorem setBucket_contacts_self (table : StaticBucket B H M) (i : Fin M)
    (b : BoundedVec Contact B) : (table.setBucket i b).contacts i = b :=
  Function.update_self ..

omit [NeZero M] in
theorem setBucket_contacts_ne (table : StaticBucket B H M) {i j : Fin M} (h : j ≠ i)
    (b : BoundedVec Contact B) : (table.setBucket i b).contacts j = table.contacts j :=
  Function.update_of_ne h ..

@[simp] theorem maybeAddContact_myId (table : StaticBucket B H M) (c : Contact) :
    (table.maybeAddContact c).myId = table.myId := by
  unfold maybeAddContact
  split
  · rfl
  · dsimp only
    split <;> rfl

@[simp] theorem removeContact_myId (table : StaticBucket B H M) (c : Contact) :
    (table.removeContact c).myId = table.myId := by
  unfold removeContact
  dsimp only
  split <;> rfl

/-- The index of an id depends on the table's own id alone. -/
theorem bucketIndex_congr {table table' : StaticBucket B H M}
    (h : table'.myId = table.myId) (id : NodeId) :
    table'.bucketIndex id = table.bucketIndex id := by
  refine Fin.ext ?_
  show min (leadingZeros (xorDistance id table'.myId) >>> H) (M - 1) = _
  rw [h]
  rfl

/-- In a table in order, whether an id is held is decided by its bucket. -/
theorem Ok.mem_ids_iff {table : StaticBucket B H M} (h : table.Ok) (id : NodeId) :
    id ∈ table.contactsIter.map Contact.id
      ↔ id ∈ (table.contacts (table.bucketIndex id)).toList.map Contact.id := by
  rw [List.mem_map, List.mem_map]
  constructor
  · rintro ⟨c, hc, rfl⟩
    obtain ⟨i, hi⟩ := mem_contactsIter.mp hc
    exact ⟨c, (h.placed i c hi).symm ▸ hi, rfl⟩
  · rintro ⟨c, hc, rfl⟩
    exact ⟨c, mem_contactsIter.mpr ⟨_, hc⟩, rfl⟩

/-- What the bucket of an offered contact holds afterwards. -/
theorem mem_bucket_maybeAddContact {table : StaticBucket B H M} (h : table.Ok)
    {c : Contact} (hc : c.id ≠ table.myId) (x : Contact) :
    x ∈ ((table.maybeAddContact c).contacts (table.bucketIndex c.id)).toList
      ↔ (x = c ∧ table.Admits c)
        ∨ (x ∈ (table.contacts (table.bucketIndex c.id)).toList ∧ x.id ≠ c.id) := by
  unfold maybeAddContact
  rw [if_neg hc]
  dsimp only
  unfold Admits
  rw [h.mem_ids_iff]
  by_cases hk : c.id ∈ (table.contacts (table.bucketIndex c.id)).toList.map Contact.id
  · rw [if_pos ((knows_iff _ _).mpr hk), setBucket_contacts_self,
      mem_refresh (h.nodup _) hk]
    exact or_congr_left (and_iff_left (Or.inl hk)).symm
  · have hne : ∀ y ∈ (table.contacts (table.bucketIndex c.id)).toList, y.id ≠ c.id :=
      fun y hy he => hk (List.mem_map.mpr ⟨y, hy, he⟩)
    rw [if_neg (fun hkn => hk ((knows_iff _ _).mp hkn)), setBucket_contacts_self]
    by_cases hroom : (table.contacts (table.bucketIndex c.id)).toList.length < B
    · rw [BoundedVec.toList_push_of_lt hroom, List.mem_append, List.mem_singleton, or_comm]
      exact or_congr (and_iff_left (Or.inr hroom)).symm
        ⟨fun hx => ⟨hx, hne x hx⟩, fun hx => hx.1⟩
    · have hfull := le_antisymm (table.contacts (table.bucketIndex c.id)).length_le
        (not_lt.mp hroom)
      rw [BoundedVec.push_of_full hfull]
      refine ⟨fun hx => Or.inr ⟨hx, hne x hx⟩, fun hx => ?_⟩
      exact (hx.resolve_left (fun hl => hl.2.elim hk hroom)).1

/-- Other buckets are left alone. -/
theorem maybeAddContact_contacts_ne (table : StaticBucket B H M) {c : Contact}
    {j : Fin M} (hj : j ≠ table.bucketIndex c.id) :
    (table.maybeAddContact c).contacts j = table.contacts j := by
  unfold maybeAddContact
  split
  · rfl
  · dsimp only
    split <;> exact setBucket_contacts_ne _ hj _

/-- **What an offer changes**: the offered contact comes in where the table
admits it, in place of what was held for its id, and nothing else moves. This
is the one statement about an offer that later proofs use; the three branches
of the code are behind it. -/
theorem mem_contactsIter_maybeAddContact {table : StaticBucket B H M} (h : table.Ok)
    {c : Contact} (hc : c.id ≠ table.myId) (x : Contact) :
    x ∈ (table.maybeAddContact c).contactsIter
      ↔ (x = c ∧ table.Admits c) ∨ (x ∈ table.contactsIter ∧ x.id ≠ c.id) := by
  rw [mem_contactsIter, mem_contactsIter]
  constructor
  · rintro ⟨i, hx⟩
    by_cases hi : i = table.bucketIndex c.id
    · subst hi
      exact ((mem_bucket_maybeAddContact h hc x).mp hx).imp id
        (fun hx => ⟨⟨_, hx.1⟩, hx.2⟩)
    · rw [maybeAddContact_contacts_ne _ hi] at hx
      exact Or.inr ⟨⟨i, hx⟩, fun he => hi (by rw [← he, h.placed i x hx])⟩
  · rintro (hx | ⟨⟨i, hx⟩, hne⟩)
    · exact ⟨_, (mem_bucket_maybeAddContact h hc x).mpr (Or.inl hx)⟩
    · by_cases hi : i = table.bucketIndex c.id
      · subst hi
        exact ⟨_, (mem_bucket_maybeAddContact h hc x).mpr (Or.inr ⟨hx, hne⟩)⟩
      · exact ⟨i, by rw [maybeAddContact_contacts_ne _ hi]; exact hx⟩

/-- The ids of a bucket stay distinct under an offer. -/
theorem nodup_maybeAddContact {table : StaticBucket B H M} (h : table.Ok) (c : Contact)
    (i : Fin M) : (((table.maybeAddContact c).contacts i).toList.map Contact.id).Nodup := by
  by_cases hi : i = table.bucketIndex c.id
  · unfold maybeAddContact
    split
    · exact h.nodup i
    · dsimp only
      rw [hi]
      split
      · rw [setBucket_contacts_self, map_id_refresh]
        exact h.nodup _
      · next hk =>
        rw [setBucket_contacts_self]
        unfold BoundedVec.push
        split
        · rw [List.map_append, List.map_singleton]
          refine List.nodup_append.mpr ⟨h.nodup _, List.nodup_singleton _, ?_⟩
          intro a ha b hb hab
          rw [List.mem_singleton.mp hb] at hab
          exact hk ((knows_iff _ _).mpr (hab ▸ ha))
        · exact h.nodup _
  · rw [maybeAddContact_contacts_ne _ hi]
    exact h.nodup i

/-- **An offer keeps the table in order.** A new contact is pushed into the
bucket of its own id only if that bucket has no entry for it, a known one keeps
its place, and our own id is turned away before anything else. -/
theorem Ok.maybeAddContact {table : StaticBucket B H M} (h : table.Ok) (c : Contact) :
    (table.maybeAddContact c).Ok := by
  by_cases hc : c.id = table.myId
  · have hsame : table.maybeAddContact c = table := by
      unfold StaticBucket.maybeAddContact
      rw [if_pos hc]
    rw [hsame]
    exact h
  · have hold : ∀ i, ∀ x ∈ ((table.maybeAddContact c).contacts i).toList,
        (x = c ∧ i = table.bucketIndex c.id) ∨ x ∈ (table.contacts i).toList := by
      intro i x hx
      by_cases hi : i = table.bucketIndex c.id
      · subst hi
        exact ((mem_bucket_maybeAddContact h hc x).mp hx).imp
          (fun hx => ⟨hx.1, rfl⟩) (fun hx => hx.1)
      · rw [maybeAddContact_contacts_ne _ hi] at hx
        exact Or.inr hx
    refine ⟨fun i x hx => ?_, fun i => nodup_maybeAddContact h c i, fun i x hx => ?_⟩
    · rw [bucketIndex_congr (maybeAddContact_myId table c)]
      rcases hold i x hx with ⟨rfl, hi⟩ | hx
      · exact hi.symm
      · exact h.placed i x hx
    · rw [maybeAddContact_myId]
      rcases hold i x hx with ⟨rfl, -⟩ | hx
      · exact hc
      · exact h.ne_myId i x hx

/-- What a removal leaves in each bucket. -/
theorem removeContact_contacts {table : StaticBucket B H M} (h : table.Ok) (c : Contact)
    (i : Fin M) :
    (((table.removeContact c).contacts i).toList).Perm ((table.contacts i).toList.erase c) := by
  have hnot : i ≠ table.bucketIndex c.id → (table.contacts i).toList.erase c
      = (table.contacts i).toList := fun hi =>
    List.erase_of_not_mem (fun hc => hi (h.placed i c hc).symm)
  unfold StaticBucket.removeContact
  dsimp only
  split
  · next j hj =>
    by_cases hi : i = table.bucketIndex c.id
    · rw [hi, setBucket_contacts_self, List.erase_eq_eraseIdx, hj]
      exact BoundedVec.swapRemoveIn_perm (List.findIdx?_eq_some_iff_getElem.mp hj).1
    · rw [setBucket_contacts_ne _ hi, hnot hi]
  · next hj =>
    by_cases hi : i = table.bucketIndex c.id
    · rw [hi, List.erase_eq_eraseIdx, hj]
    · rw [hnot hi]

/-- **What a removal changes**: exactly the contact goes. -/
theorem mem_contactsIter_removeContact {table : StaticBucket B H M} (h : table.Ok)
    (c x : Contact) :
    x ∈ (table.removeContact c).contactsIter ↔ x ∈ table.contactsIter ∧ x ≠ c := by
  rw [mem_contactsIter, mem_contactsIter, ← exists_and_right]
  refine exists_congr (fun i => ?_)
  rw [(removeContact_contacts h c i).mem_iff,
    (List.Nodup.of_map _ (h.nodup i)).mem_erase_iff, and_comm]

/-- **A removal keeps the table in order.** -/
theorem Ok.removeContact {table : StaticBucket B H M} (h : table.Ok) (c : Contact) :
    (table.removeContact c).Ok := by
  have hsub : ∀ i, ∀ x ∈ ((table.removeContact c).contacts i).toList,
      x ∈ (table.contacts i).toList := fun i x hx =>
    List.mem_of_mem_erase ((removeContact_contacts h c i).mem_iff.mp hx)
  refine ⟨fun i x hx => ?_, fun i => ?_, fun i x hx => ?_⟩
  · rw [bucketIndex_congr (removeContact_myId table c)]
    exact h.placed i x (hsub i x hx)
  · refine (((removeContact_contacts h c i).map Contact.id).nodup_iff).mpr ?_
    exact (h.nodup i).sublist (List.erase_sublist.map Contact.id)
  · rw [removeContact_myId]
    exact h.ne_myId i x (hsub i x hx)

/-! ## What a query reads

The loop keeps two ends and a list, and moves either end by one bucket a round
until it meets an edge of the table. `within home r` is what it has collected
after `r` rounds, told without the ends: the buckets at most `r` away from the
home bucket, in the order they were read. Past an edge there are no buckets, so
the ends need not be mentioned. -/

omit [NeZero M] in
/-- The contacts of the buckets at most `r` away from `home`, in the order
the query reads them. -/
def within (table : StaticBucket B H M) (home : ℕ) : ℕ → List Contact
  | 0 => table.bucket home
  | r + 1 => table.within home r ++ (table.bucket (home + (r + 1))
      ++ if r + 1 ≤ home then table.bucket (home - (r + 1)) else [])

omit [NeZero M] in
theorem bucket_eq_nil (table : StaticBucket B H M) {i : ℕ} (h : M ≤ i) :
    table.bucket i = [] := by
  unfold bucket
  rw [dif_neg (not_lt.mpr h)]

omit [NeZero M] in
theorem mem_within {table : StaticBucket B H M} {home r : ℕ} {c : Contact} :
    c ∈ table.within home r
      ↔ ∃ i, c ∈ table.bucket i ∧ home ≤ i + r ∧ i ≤ home + r := by
  induction r with
  | zero =>
    refine ⟨fun h => ⟨home, h, le_rfl, le_rfl⟩, fun ⟨i, h, hlo, hhi⟩ => ?_⟩
    rwa [le_antisymm hlo hhi]
  | succ r ih =>
    unfold within
    rw [List.mem_append, List.mem_append, ih]
    constructor
    · rintro (⟨i, h, hlo, hhi⟩ | h | h)
      · exact ⟨i, h, by omega, by omega⟩
      · exact ⟨_, h, by omega, le_rfl⟩
      · split at h
        · exact ⟨_, h, by omega, by omega⟩
        · exact absurd h List.not_mem_nil
    · rintro ⟨i, h, hlo, hhi⟩
      by_cases hin : home ≤ i + r ∧ i ≤ home + r
      · exact Or.inl ⟨i, h, hin⟩
      · right
        by_cases hup : i = home + (r + 1)
        · exact Or.inl (hup ▸ h)
        · have hlow : i = home - (r + 1) := by omega
          rw [if_pos (by omega)]
          exact Or.inr (hlow ▸ h)

omit [NeZero M] in
theorem length_within_mono (table : StaticBucket B H M) (home : ℕ) {r r' : ℕ}
    (h : r ≤ r') : (table.within home r).length ≤ (table.within home r').length := by
  induction r', h using Nat.le_induction with
  | base => exact le_rfl
  | succ r' _ ih =>
    refine ih.trans ?_
    rw [within, List.length_append]
    exact Nat.le_add_right _ _

omit [NeZero M] in
/-- One round of the loop reads one bucket more on either side. -/
theorem widen_step (table : StaticBucket B H M) {rounds home r : ℕ} (hhome : home < M)
    (hgo : (table.within home r).length < K ∧ (r + 1 ≤ home ∨ home + r + 1 < M)) :
    table.widen (rounds + 1) (home - r) (min (home + r) (M - 1)) (table.within home r)
      = table.widen rounds (home - (r + 1)) (min (home + (r + 1)) (M - 1))
          (table.within home (r + 1)) := by
  have hcond : (table.within home r).length < K
      ∧ (0 < home - r ∨ min (home + r) (M - 1) + 1 < M) := ⟨hgo.1, by omega⟩
  have hread : ∀ out : List Contact,
      (if min (home + r) (M - 1) + 1 < M
        then (min (home + r) (M - 1) + 1,
          table.extendFromBucket out (min (home + r) (M - 1) + 1))
        else (min (home + r) (M - 1), out))
        = (min (home + (r + 1)) (M - 1), out ++ table.bucket (home + (r + 1))) := by
    intro out
    by_cases hup : home + r + 1 < M
    · rw [if_pos (by omega), extendFromBucket,
        show min (home + r) (M - 1) + 1 = home + (r + 1) by omega,
        show min (home + (r + 1)) (M - 1) = home + (r + 1) by omega]
    · rw [if_neg (by omega), bucket_eq_nil table (by omega), List.append_nil,
        show min (home + (r + 1)) (M - 1) = min (home + r) (M - 1) by omega]
  have hread' : ∀ out : List Contact,
      (if 0 < home - r then (home - r - 1, table.extendFromBucket out (home - r - 1))
        else (home - r, out))
        = (home - (r + 1),
          out ++ if r + 1 ≤ home then table.bucket (home - (r + 1)) else []) := by
    intro out
    by_cases hlow : r + 1 ≤ home
    · rw [if_pos (by omega), if_pos hlow, extendFromBucket,
        show home - r - 1 = home - (r + 1) by omega]
    · rw [if_neg (by omega), if_neg hlow, List.append_nil,
        show home - r = home - (r + 1) by omega]
  conv_lhs => unfold widen
  rw [if_pos hcond, hread]
  dsimp only
  rw [hread']
  dsimp only
  rw [List.append_assoc]
  rfl

omit [NeZero M] in
/-- **Where the widening stops**: at the first radius whose buckets hold `K`
contacts, or with the whole table read. The induction is on the rounds left.
`M` of them are enough, since each round moves one of the ends by one
bucket. -/
theorem widen_eq (table : StaticBucket B H M) {home : ℕ} (hhome : home < M) :
    ∀ rounds r : ℕ, M ≤ rounds + r + 1 →
      ∃ r', r ≤ r'
        ∧ table.widen rounds (home - r) (min (home + r) (M - 1)) (table.within home r)
            = table.within home r'
        ∧ (K ≤ (table.within home r').length ∨ (home ≤ r' ∧ M ≤ home + r' + 1))
        ∧ ∀ q, r ≤ q → q < r' → (table.within home q).length < K := by
  intro rounds
  induction rounds with
  | zero =>
    intro r hM
    exact ⟨r, le_rfl, rfl, Or.inr ⟨by omega, by omega⟩, fun q hq hlt => by omega⟩
  | succ rounds ih =>
    intro r hM
    by_cases hgo : (table.within home r).length < K ∧ (r + 1 ≤ home ∨ home + r + 1 < M)
    · obtain ⟨r', hr, heq, hstop, hbefore⟩ := ih (r + 1) (by omega)
      refine ⟨r', by omega, (widen_step table hhome hgo).trans heq, hstop, fun q hq hlt => ?_⟩
      by_cases hqr : q = r
      · rw [hqr]
        exact hgo.1
      · exact hbefore q (by omega) hlt
    · refine ⟨r, le_rfl, ?_, ?_, fun q hq hlt => by omega⟩
      · unfold widen
        rw [if_neg (fun hc => hgo ⟨hc.1, by omega⟩)]
      · by_cases hK : (table.within home r).length < K
        · exact Or.inr (by constructor <;> by_contra hn <;> exact hgo ⟨hK, by omega⟩)
        · exact Or.inl (not_lt.mp hK)

/-- The candidates of a query are the contacts within a radius of the home
bucket: the first radius that holds `K` of them, or one that covers the
table. -/
theorem exists_candidates_eq (table : StaticBucket B H M) (t : NodeId) :
    ∃ r, table.candidates t = table.within (table.bucketIndex t) r
      ∧ (K ≤ (table.within (table.bucketIndex t) r).length
          ∨ ((table.bucketIndex t : ℕ) ≤ r ∧ M ≤ table.bucketIndex t + r + 1))
      ∧ ∀ q < r, (table.within (table.bucketIndex t) q).length < K := by
  have hhome := (table.bucketIndex t).isLt
  obtain ⟨r, -, heq, hstop, hbefore⟩ := widen_eq table hhome M 0 (by omega)
  refine ⟨r, Eq.trans ?_ heq, hstop, fun q hq => hbefore q (Nat.zero_le q) hq⟩
  unfold candidates extendFromBucket
  dsimp only
  rw [List.nil_append, Nat.sub_zero, Nat.add_zero,
    show min (table.bucketIndex t : ℕ) (M - 1) = table.bucketIndex t by omega]
  rfl

omit [NeZero M] in
theorem mem_bucket {table : StaticBucket B H M} {i : ℕ} {c : Contact} :
    c ∈ table.bucket i ↔ ∃ h : i < M, c ∈ (table.contacts ⟨i, h⟩).toList := by
  unfold bucket
  split
  · next h => exact ⟨fun hc => ⟨h, hc⟩, fun hc => hc.2⟩
  · next h => exact ⟨fun hc => absurd hc List.not_mem_nil, fun hc => absurd hc.1 h⟩

/-- In a table in order, the bucket a contact is in is the bucket of its id. -/
theorem Ok.mem_bucket_iff {table : StaticBucket B H M} (h : table.Ok) {i : ℕ}
    {c : Contact} : c ∈ table.bucket i
      ↔ c ∈ table.contactsIter ∧ (table.bucketIndex c.id : ℕ) = i := by
  rw [mem_bucket, mem_contactsIter]
  constructor
  · rintro ⟨hi, hc⟩
    exact ⟨⟨_, hc⟩, by rw [h.placed _ c hc]⟩
  · rintro ⟨⟨j, hc⟩, rfl⟩
    exact ⟨(table.bucketIndex c.id).isLt, by rw [← h.placed j c hc] at hc; exact hc⟩

/-- The contacts within a radius, told by the bucket of their id. -/
theorem Ok.mem_within_iff {table : StaticBucket B H M} (h : table.Ok) {home r : ℕ}
    {c : Contact} : c ∈ table.within home r ↔ c ∈ table.contactsIter
      ∧ home ≤ table.bucketIndex c.id + r ∧ table.bucketIndex c.id ≤ home + r := by
  rw [mem_within]
  constructor
  · rintro ⟨i, hc, hlo, hhi⟩
    obtain ⟨hmem, rfl⟩ := h.mem_bucket_iff.mp hc
    exact ⟨hmem, hlo, hhi⟩
  · rintro ⟨hmem, hlo, hhi⟩
    exact ⟨_, h.mem_bucket_iff.mpr ⟨hmem, rfl⟩, hlo, hhi⟩

/-- A bucket holds an id at most once. -/
theorem Ok.nodup_bucket {table : StaticBucket B H M} (h : table.Ok) (i : ℕ) :
    ((table.bucket i).map Contact.id).Nodup := by
  unfold bucket
  split
  · exact h.nodup _
  · exact List.nodup_nil

/-- Contacts whose buckets differ have different ids. -/
theorem nodup_map_append (table : StaticBucket B H M) {l l' : List Contact}
    (hl : (l.map Contact.id).Nodup) (hl' : (l'.map Contact.id).Nodup)
    (hne : ∀ a ∈ l, ∀ b ∈ l', table.bucketIndex a.id ≠ table.bucketIndex b.id) :
    ((l ++ l').map Contact.id).Nodup := by
  rw [List.map_append]
  refine List.nodup_append.mpr ⟨hl, hl', fun x hx y hy hxy => ?_⟩
  obtain ⟨a, ha, rfl⟩ := List.mem_map.mp hx
  obtain ⟨b, hb, rfl⟩ := List.mem_map.mp hy
  exact hne a ha b hb (by rw [hxy])

/-- Reading outwards repeats no id. -/
theorem Ok.nodup_within {table : StaticBucket B H M} (h : table.Ok) (home r : ℕ) :
    ((table.within home r).map Contact.id).Nodup := by
  have hval : ∀ {i : ℕ} {c : Contact}, c ∈ table.bucket i →
      (table.bucketIndex c.id : ℕ) = i := fun hc => (h.mem_bucket_iff.mp hc).2
  induction r with
  | zero => exact h.nodup_bucket home
  | succ r ih =>
    unfold within
    refine nodup_map_append table ih (nodup_map_append table (h.nodup_bucket _) ?_ ?_) ?_
    · split
      · exact h.nodup_bucket _
      · exact List.nodup_nil
    · intro a ha b hb hab
      split at hb
      · have := congrArg Fin.val hab
        rw [hval ha, hval hb] at this
        omega
      · exact absurd hb List.not_mem_nil
    · intro a ha b hb hab
      obtain ⟨-, hlo, hhi⟩ := h.mem_within_iff.mp ha
      have hval' := congrArg Fin.val hab
      rcases List.mem_append.mp hb with hb | hb
      · rw [hval hb] at hval'
        omega
      · split at hb
        · rw [hval hb] at hval'
          omega
        · exact absurd hb List.not_mem_nil

/-- **A query answers with the `K` nearest of what it read.** -/
theorem Ok.selects_closeNodes {table : StaticBucket B H M} (h : table.Ok) (t : NodeId) :
    Nearest.Selects (fun c => distance c.id t) K {c | c ∈ table.candidates t}
      (table.closeNodes t) := by
  obtain ⟨r, heq, -⟩ := exists_candidates_eq table t
  refine Nearest.selects_sortBy (nearerTo_eq t) K ?_
  rw [heq]
  exact (List.pairwise_map.mp (h.nodup_within _ r)).imp
    (fun hab he => hab (distance_injective t he))

/-- **Which buckets are left unread.** A contact outside the home bucket is a
candidate exactly when the buckets strictly nearer to the home bucket than its
own, in the count of buckets, hold fewer than `K` contacts. If they hold `K`
the loop has stopped before; if not it goes on at least to the contact's own
bucket. -/
theorem Ok.mem_candidates_iff {table : StaticBucket B H M} (h : table.Ok) {t : NodeId}
    {c : Contact} (hc : c ∈ table.contactsIter) {gap : ℕ}
    (hgap : (table.bucketIndex c.id : ℕ) = table.bucketIndex t + (gap + 1)
      ∨ (table.bucketIndex t : ℕ) = table.bucketIndex c.id + (gap + 1)) :
    c ∈ table.candidates t ↔ (table.within (table.bucketIndex t) gap).length < K := by
  have hlt := (table.bucketIndex c.id).isLt
  obtain ⟨r, heq, hstop, hbefore⟩ := exists_candidates_eq table t
  rw [heq, h.mem_within_iff, and_iff_right hc]
  constructor
  · rintro ⟨hlo, hhi⟩
    exact hbefore gap (by omega)
  · intro hfew
    by_contra hout
    have hr : r ≤ gap := by omega
    have hlen := length_within_mono table (table.bucketIndex t) hr
    rcases hstop with hfull | hcover
    · exact absurd (hfull.trans hlen) (not_le.mpr hfew)
    · omega

/-- The home bucket is always read. -/
theorem Ok.mem_candidates_of_home {table : StaticBucket B H M} (h : table.Ok) {t : NodeId}
    {c : Contact} (hc : c ∈ table.contactsIter)
    (hhome : table.bucketIndex c.id = table.bucketIndex t) : c ∈ table.candidates t := by
  obtain ⟨r, heq, -⟩ := exists_candidates_eq table t
  rw [heq, h.mem_within_iff, hhome]
  exact ⟨hc, Nat.le_add_right _ _, Nat.le_add_right _ _⟩

theorem Ok.candidates_subset {table : StaticBucket B H M} (h : table.Ok) {t : NodeId}
    {c : Contact} (hc : c ∈ table.candidates t) : c ∈ table.contactsIter := by
  obtain ⟨r, heq, -⟩ := exists_candidates_eq table t
  rw [heq, h.mem_within_iff] at hc
  exact hc.1

/-! ## One bucket per bit

The table a node uses has one bucket for every length of a shared prefix, so
that the index of a bucket is the length itself. Only then does the order of
the buckets say something about distances. -/

section OneBucketPerBit

/-- With one bucket per bit, the bucket of a contact is the length of the
prefix it shares with the table's own id. -/
theorem bucketIndex_eq_sharedPrefix (table : StaticBucket B 0 idBits) {id : NodeId}
    (h : id ≠ table.myId) :
    (table.bucketIndex id : ℕ) = sharedPrefix id table.myId := by
  have hlt := sharedPrefix_lt_of_ne h
  show min (sharedPrefix id table.myId >>> 0) (idBits - 1) = _
  rw [Nat.shiftRight_zero]
  omega

theorem bucketIndex_le_sharedPrefix (table : StaticBucket B 0 idBits) (id : NodeId) :
    (table.bucketIndex id : ℕ) ≤ sharedPrefix id table.myId := by
  show min (sharedPrefix id table.myId >>> 0) (idBits - 1) ≤ _
  rw [Nat.shiftRight_zero]
  exact min_le_left _ _

/-- **Below the home bucket, farther buckets are farther from the target.** An
id in a bucket below leaves our id, and with it the target, before the target
leaves ours; the one that leaves first shares least. -/
theorem distance_lt_of_bucket_lt (table : StaticBucket B 0 idBits) {x y t : NodeId}
    (hx : x ≠ table.myId) (hy : y ≠ table.myId)
    (hhome : table.bucketIndex x < table.bucketIndex t)
    (hxy : table.bucketIndex x < table.bucketIndex y) :
    distance y t < distance x t := by
  have hix := bucketIndex_eq_sharedPrefix table hx
  have hiy := bucketIndex_eq_sharedPrefix table hy
  have hit := bucketIndex_le_sharedPrefix table t
  refine distance_lt_of_sharedPrefix_lt (sharedPrefix_lt_of_short (m := table.myId) ?_ ?_)
  · rw [← hix, ← hiy]
    exact hxy
  · rw [← hix]
    exact lt_of_lt_of_le hhome hit

/-- **The home bucket is nearest**: a contact of the target's own bucket is
nearer to the target than any contact of another. It leaves our id exactly
where the target does and so goes along with the target for at least one bit
more than any other contact. -/
theorem distance_lt_of_home (table : StaticBucket B 0 idBits) {x y t : NodeId}
    (hx : x ≠ table.myId) (hy : y ≠ table.myId)
    (hhome : table.bucketIndex y = table.bucketIndex t)
    (hout : table.bucketIndex x ≠ table.bucketIndex t) :
    distance y t < distance x t := by
  rcases lt_or_gt_of_ne hout with hlt | hgt
  · exact distance_lt_of_bucket_lt table hx hy hlt (hhome ▸ hlt)
  · -- the target leaves our own id before `x` does, where `y` also leaves it
    have hix := bucketIndex_eq_sharedPrefix table hx
    have hiy := bucketIndex_eq_sharedPrefix table hy
    have hmy : t ≠ table.myId := by
      rintro rfl
      have hself : (table.bucketIndex table.myId : ℕ) = idBits - 1 := by
        show min (sharedPrefix table.myId table.myId >>> 0) (idBits - 1) = idBits - 1
        rw [Nat.shiftRight_zero, sharedPrefix_self]
        exact min_eq_right (Nat.sub_le _ _)
      have := Fin.lt_def.mp hgt
      have := (table.bucketIndex x).isLt
      omega
    have hit := bucketIndex_eq_sharedPrefix table hmy
    refine distance_lt_of_sharedPrefix_lt (sharedPrefix_lt_of_home (m := table.myId) ?_ ?_)
    · rw [← hiy, ← hit, hhome]
    · rw [← hix, ← hit]
      exact hgt

end OneBucketPerBit

/-! ## Which buckets are read

The loop is followed a second time for the indices it reads: `widenReads`
branches as `widen` does and collects the index where `widen` collects the
bucket. -/

/-- The indices of the buckets the widening loop reads, after those already
read. -/
def widenReads (table : StaticBucket B H M) : ℕ → ℕ → ℕ → List ℕ → List ℕ
  | 0, _, _, read => read
  | rounds + 1, low, high, read =>
    if (read.flatMap table.bucket).length < K ∧ (0 < low ∨ high + 1 < M) then
      let (high, read) := if high + 1 < M then (high + 1, read ++ [high + 1]) else (high, read)
      let (low, read) := if 0 < low then (low - 1, read ++ [low - 1]) else (low, read)
      table.widenReads rounds low high read
    else read

/-- The indices of the buckets a query reads, in order. -/
def reads (table : StaticBucket B H M) (id : NodeId) : List ℕ :=
  let home := (table.bucketIndex id : ℕ)
  table.widenReads M home home [home]

omit [NeZero M] in
/-- The loop collects the buckets whose indices it reads. -/
theorem widen_eq_flatMap (table : StaticBucket B H M) (rounds low high : ℕ) (read : List ℕ) :
    table.widen rounds low high (read.flatMap table.bucket)
      = (table.widenReads rounds low high read).flatMap table.bucket := by
  have hmore : ∀ (read : List ℕ) (i : ℕ), table.extendFromBucket (read.flatMap table.bucket) i
      = (read ++ [i]).flatMap table.bucket := by
    intro read i
    rw [List.flatMap_append, List.flatMap_singleton]
    rfl
  induction rounds generalizing low high read with
  | zero => rfl
  | succ rounds ih =>
    unfold widen widenReads
    split
    · by_cases hhigh : high + 1 < M <;> by_cases hlow : 0 < low <;>
        simp only [hhigh, hlow, if_true, if_false, hmore, ih]
    · rfl

/-- **What the loop has read**: distinct indices between its two ends, which
lie in the table. -/
structure ReadBetween (M low high : ℕ) (read : List ℕ) : Prop where
  /-- No index is read twice. -/
  nodup : read.Nodup
  /-- What was read lies between the ends. -/
  between : ∀ i ∈ read, low ≤ i ∧ i ≤ high
  /-- The ends are in order. -/
  le : low ≤ high
  /-- The upper end is a bucket. -/
  lt : high < M

omit [NeZero M] in
theorem ReadBetween.up {low high : ℕ} {read : List ℕ} (h : ReadBetween M low high read)
    (hhigh : high + 1 < M) : ReadBetween M low (high + 1) (read ++ [high + 1]) := by
  have hle := h.le
  refine ⟨h.nodup.append (List.nodup_singleton _) (List.disjoint_singleton.mpr fun hi => ?_),
    fun i hi => ?_, by omega, hhigh⟩
  · exact absurd (h.between _ hi).2 (by omega)
  · rcases List.mem_append.mp hi with hi | hi
    · exact (h.between i hi).imp id (fun hle => by omega)
    · rw [List.mem_singleton.mp hi]
      exact ⟨by omega, le_rfl⟩

omit [NeZero M] in
theorem ReadBetween.down {low high : ℕ} {read : List ℕ} (h : ReadBetween M low high read)
    (hlow : 0 < low) : ReadBetween M (low - 1) high (read ++ [low - 1]) := by
  have hle := h.le
  refine ⟨h.nodup.append (List.nodup_singleton _) (List.disjoint_singleton.mpr fun hi => ?_),
    fun i hi => ?_, by omega, h.lt⟩
  · exact absurd (h.between _ hi).1 (by omega)
  · rcases List.mem_append.mp hi with hi | hi
    · exact (h.between i hi).imp (fun hle => by omega) id
    · rw [List.mem_singleton.mp hi]
      exact ⟨le_rfl, by omega⟩

omit [NeZero M] in
/-- **The loop reads no bucket twice**: each end moves away from what was
read. -/
theorem ReadBetween.widenReads {low high : ℕ} {read : List ℕ} (h : ReadBetween M low high read)
    (table : StaticBucket B H M) (rounds : ℕ) :
    ∃ low' high', ReadBetween M low' high' (table.widenReads rounds low high read) := by
  induction rounds generalizing low high read with
  | zero => exact ⟨low, high, h⟩
  | succ rounds ih =>
    unfold StaticBucket.widenReads
    split
    · by_cases hhigh : high + 1 < M <;> by_cases hlow : 0 < low <;>
        simp only [hhigh, hlow, if_true, if_false]
      · exact ih ((h.up hhigh).down hlow)
      · exact ih (h.up hhigh)
      · exact ih (h.down hlow)
      · exact ih h
    · exact ⟨low, high, h⟩

/-- The candidates of a query are the contacts of the buckets it reads. -/
theorem candidates_eq_flatMap (table : StaticBucket B H M) (t : NodeId) :
    table.candidates t = (table.reads t).flatMap table.bucket := by
  rw [reads, ← widen_eq_flatMap, List.flatMap_singleton]
  rfl

theorem exists_readBetween (table : StaticBucket B H M) (t : NodeId) :
    ∃ low high, ReadBetween M low high (table.reads t) := by
  refine ReadBetween.widenReads ⟨List.nodup_singleton _, fun i hi => ?_, le_rfl,
    (table.bucketIndex t).isLt⟩ table M
  rw [List.mem_singleton.mp hi]
  exact ⟨le_rfl, le_rfl⟩

/-! ## What a query answers -/

/-- **A query has as many candidates as it needs**: `K`, or all there are. The
loop stops early only with `K` candidates, and otherwise has read every
bucket. -/
theorem Ok.min_length_candidates {table : StaticBucket B H M} (h : table.Ok) (t : NodeId) :
    min K (table.candidates t).length = min K table.contactsIter.length := by
  obtain ⟨r, heq, hstop, -⟩ := exists_candidates_eq table t
  have hnodup : (table.candidates t).Nodup := by
    rw [heq]
    exact List.Nodup.of_map _ (h.nodup_within _ r)
  have hle : (table.candidates t).length ≤ table.contactsIter.length :=
    (hnodup.subperm fun _ hc => h.candidates_subset hc).length_le
  rcases hstop with hfull | ⟨hlow, hhigh⟩
  · rw [← heq] at hfull
    omega
  · -- the whole table was read
    have hge : table.contactsIter.length ≤ (table.candidates t).length := by
      refine ((List.Nodup.of_map _ h.nodup_contactsIter).subperm fun c hc => ?_).length_le
      have hlt := (table.bucketIndex c.id).isLt
      rw [heq, h.mem_within_iff]
      exact ⟨hc, by omega, by omega⟩
    omega

/-- **What a query answers**: as many contacts as the table holds, up to `K`,
nearest first, read from each bucket at most once; and with one bucket per
bit, those of the target's own bucket before all others. -/
structure Covers (table : StaticBucket B H M) (t : NodeId) : Prop where
  /-- There are `K` contacts in the answer, or all the table holds. -/
  length : (table.closeNodes t).length = min K table.contactsIter.length
  /-- Every one of them is held. -/
  held : table.closeNodes t ⊆ table.contactsIter
  /-- No id is repeated. -/
  nodup : ((table.closeNodes t).map Contact.id).Nodup
  /-- Nearer contacts come first. -/
  sorted : (table.closeNodes t).Pairwise (fun a b => distance a.id t < distance b.id t)
  /-- The candidates are the contacts of the buckets read. -/
  reads : table.candidates t = (table.reads t).flatMap table.bucket
  /-- No bucket is read twice. -/
  reads_nodup : (table.reads t).Nodup
  /-- Only buckets of the table are read. -/
  reads_lt : ∀ i ∈ table.reads t, i < M
  /-- With one bucket per bit, a contact of the target's bucket is left out
  only where `K` nearer contacts of that bucket are in the answer. -/
  home : H = 0 → M = idBits → ∀ c ∈ table.bucket (table.bucketIndex t),
    c ∈ table.closeNodes t ∨ ((table.closeNodes t).length = K
      ∧ ∀ b ∈ table.closeNodes t, b ∈ table.bucket (table.bucketIndex t)
        ∧ distance b.id t < distance c.id t)
  /-- With one bucket per bit, the contacts of the target's bucket come
  first. -/
  home_first : H = 0 → M = idBits → (table.closeNodes t).Pairwise
    (fun a b => b ∈ table.bucket (table.bucketIndex t) → a ∈ table.bucket (table.bucketIndex t))

/-- With one bucket per bit, whatever is at most as far from the target as a
contact of its bucket is in that bucket. -/
theorem Ok.mem_home_of_le {table : StaticBucket B H M} (h : table.Ok) (hH : H = 0)
    (hM : M = idBits) {t : NodeId} {b c : Contact} (hb : b ∈ table.contactsIter)
    (hc : c ∈ table.bucket (table.bucketIndex t)) (hle : distance b.id t ≤ distance c.id t) :
    b ∈ table.bucket (table.bucketIndex t) := by
  subst hH hM
  obtain ⟨hcmem, hchome⟩ := h.mem_bucket_iff.mp hc
  obtain ⟨i, hi⟩ := mem_contactsIter.mp hb
  obtain ⟨j, hj⟩ := mem_contactsIter.mp hcmem
  by_contra hnb
  refine absurd (distance_lt_of_home table (h.ne_myId i b hi) (h.ne_myId j c hj)
    (Fin.ext hchome) (fun hbhome => hnb ?_)) (not_lt.mpr hle)
  exact h.mem_bucket_iff.mpr ⟨hb, congrArg Fin.val hbhome⟩

theorem Ok.covers {table : StaticBucket B H M} (h : table.Ok) (t : NodeId) :
    table.Covers t := by
  have hsel := h.selects_closeNodes t
  have hheld : table.closeNodes t ⊆ table.contactsIter := fun c hc =>
    h.candidates_subset (hsel.subset c hc)
  obtain ⟨low, high, hreads⟩ := exists_readBetween table t
  refine ⟨?_, hheld, nodup_ids_of_selects hsel, hsel.sorted, candidates_eq_flatMap table t,
    hreads.nodup, fun i hi => (hreads.between i hi).2.trans_lt hreads.lt,
    fun hH hM c hc => ?_, fun hH hM => ?_⟩
  · rw [← h.min_length_candidates t, closeNodes, List.length_take,
      (Nearest.sortBy_perm _ _).length_eq]
  · refine (hsel.least c (h.mem_candidates_of_home (h.mem_bucket_iff.mp hc).1
      (Fin.ext (h.mem_bucket_iff.mp hc).2))).imp id ?_
    rintro ⟨hfull, hlt⟩
    exact ⟨hfull, fun b hb => ⟨h.mem_home_of_le hH hM (hheld hb) hc (hlt b hb).le, hlt b hb⟩⟩
  · refine hsel.sorted.imp_of_mem fun ha _ hab hbhome => ?_
    exact h.mem_home_of_le hH hM (hheld ha) hbhome hab.le

/-- The table after a sequence of writes, starting empty. -/
def run (myId : NodeId) (ops : List TableOp) : StaticBucket B H M :=
  ops.foldl TableOp.apply (new myId)

/-- **Every reachable table is in order.** It starts empty, and either write
keeps it in order. -/
theorem ok_run (myId : NodeId) (ops : List TableOp) : (run myId ops : StaticBucket B H M).Ok :=
  List.foldlRecOn ops _ (ok_new myId) fun _ h op _ => by
    cases op with
    | maybeAdd c => exact h.maybeAddContact c
    | remove c => exact h.removeContact c

/-- **Bucket widening covers the table**: after any writes, whatever the
parameters, a query answers with `K` contacts or with all that are held.

Whatever the sizes, the loop goes on until it has enough or has read
everything, and it reads no bucket twice since its ends only move apart. That
the contacts of the home bucket come first needs one bucket per bit: with fewer
buckets, or with a shift, ids that leave ours at different places share one. In
any case the answer need not be the `K` nearest of all contacts held, since
what is left unread above the home bucket can be nearer than what was read. -/
theorem covers_run (myId : NodeId) (ops : List TableOp) (t : NodeId) :
    (run myId ops : StaticBucket B H M).Covers t := (ok_run myId ops).covers t

/-- Two contacts in two buckets, of which the far one is in the target's. -/
theorem covers_run_sample :
    ∃ (a b : Contact) (t : NodeId) (table : StaticBucket 1 0 idBits),
      table = run (List.Vector.replicate idBytes 0) [.maybeAdd a, .maybeAdd b]
        ∧ table.bucket (table.bucketIndex t) = [a]
        ∧ (table.closeNodes t).length = 2 ∧ a ∈ table.closeNodes t := by
  let a : Contact := ⟨List.Vector.replicate idBytes 128, .v4 (List.Vector.replicate 4 10) 8001⟩
  let b : Contact := ⟨List.Vector.replicate idBytes 1, .v4 (List.Vector.replicate 4 10) 8002⟩
  let table : StaticBucket 1 0 idBits :=
    run (List.Vector.replicate idBytes 0) [.maybeAdd a, .maybeAdd b]
  have hcovers : table.Covers (List.Vector.replicate idBytes 129) := covers_run _ _ _
  have hhome : table.bucket (table.bucketIndex (List.Vector.replicate idBytes 129)) = [a] := by
    decide +kernel
  have hlen : (table.closeNodes (List.Vector.replicate idBytes 129)).length = 2 :=
    hcovers.length.trans (by decide +kernel)
  refine ⟨a, b, _, table, rfl, hhome, hlen, ?_⟩
  refine (hcovers.home rfl rfl a (hhome ▸ List.mem_cons_self)).resolve_right fun hfull => ?_
  exact absurd (hlen.symm.trans hfull.1) (by decide)

end StaticBucket

end Kademlia
