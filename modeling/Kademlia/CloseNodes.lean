import Kademlia.Bytes
import Kademlia.Nearest
import Kademlia.BoundedVec

/-!
# Ids, the XOR metric, and the routing-table interface

An id is 256 bits, written as 32 bytes with the most significant one first.
The distance of two ids is their exclusive or, compared byte by byte from
the front, and the length of the prefix two ids share is the number of
leading zero bits of that distance.

Read as numbers the three are familiar. `distance a t` is the exclusive or
of two numbers below `2 ^ 256`; the byte-wise comparison is the order of
distances (`xorDistanceCmp_eq`); and `leadingZeros` counts down from the bit
length (`leadingZeros_eq`). What the buckets rely on follows: sharing a
longer prefix with a target is being nearer to it
(`distance_lt_of_sharedPrefix_lt`), and two ids that leave a third after the
same prefix share one bit more with each other (`sharedPrefix_lt_of_eq`).

`CloseNodes` is the interface every routing table implements, with the
table's state explicit. `DumbBucket` is the reference: it keeps everything
and sorts on every query.
-/

namespace Kademlia

/-- Number of bytes in an id. -/
def idBytes : ℕ := 32

/-- Number of bits in an id. -/
def idBits : ℕ := 8 * idBytes

instance : NeZero idBits := ⟨by decide⟩

/-- A node id: 256 bits, most significant byte first. -/
abbrev NodeId := List.Vector UInt8 idBytes

/-- A key, in the same space as the ids. -/
abbrev Key := NodeId

/-- Where a node is reached. -/
inductive SocketAddr where
  /-- An IPv4 address and a port. -/
  | v4 (ip : List.Vector UInt8 4) (port : UInt16)
  /-- An IPv6 address and a port. -/
  | v6 (ip : List.Vector UInt8 16) (port : UInt16)
deriving DecidableEq

/-- A routing-table entry: who a node is, and where to reach it. -/
structure Contact where
  /-- Who the node is. -/
  id : NodeId
  /-- Where to reach it. -/
  address : SocketAddr
deriving DecidableEq

/-- The replication parameter: how many contacts a lookup returns. -/
def K : ℕ := 10

/-- The XOR distance between two ids, itself written as an id. -/
def xorDistance (id target : NodeId) : NodeId :=
  List.Vector.zipWith (· ^^^ ·) id target

/-- The order of two ids by their distance to a target, nearer first,
decided by the first byte where the distances differ. -/
def xorDistanceCmp (a b target : NodeId) : Ordering :=
  compare (List.zipWith (· ^^^ ·) a.toList target.toList)
    (List.zipWith (· ^^^ ·) b.toList target.toList)

/-- Leading zero bits of a byte. -/
def byteLeadingZeros (byte : UInt8) : ℕ :=
  if byte = 0 then 8 else 7 - byte.toNat.log2

/-- The scan for the first non-zero byte, `zeros` being what the bytes before
contributed. -/
def leadingZerosFrom (zeros : ℕ) : List UInt8 → ℕ
  | [] => zeros
  | byte :: rest =>
    if byte ≠ 0 then zeros + byteLeadingZeros byte else leadingZerosFrom (zeros + 8) rest

/-- Number of leading zero bits of an id. -/
def leadingZeros (id : NodeId) : ℕ := leadingZerosFrom 0 id.toList

/-! ## The metric read as numbers

The code never forms a number of 256 bits. It combines, compares and scans byte
by byte, and a reader has to trust that the three agree. Here they are read as
operations on one number: exclusive or, the order, and the bit length.
Everything that is said about buckets afterwards rests on `sharedPrefix` and
`distance` alone, and on four facts: a longer shared prefix is a smaller
distance, and two ids that leave a third after different prefixes share the
shorter one, after the same prefix a longer one, in any case at least what both
share with the third. -/

/-- The distance of two ids, as a number. -/
def distance (a t : NodeId) : ℕ := Bytes.value a.toList ^^^ Bytes.value t.toList

/-- The length of the prefix two ids share. -/
def sharedPrefix (a b : NodeId) : ℕ := leadingZeros (xorDistance a b)

theorem value_lt (a : NodeId) : Bytes.value a.toList < 2 ^ idBits := by
  have h := Bytes.value_lt a.toList
  rw [a.toList_length] at h
  calc Bytes.value a.toList < 256 ^ idBytes := h
    _ = 2 ^ idBits := by rw [idBits, pow_mul]; norm_num

/-- The distance an id spells is the exclusive or of the numbers. -/
theorem value_xorDistance (a t : NodeId) :
    Bytes.value (xorDistance a t).toList = distance a t := by
  rw [xorDistance, List.Vector.zipWith_toList]
  exact Bytes.value_zipWith_xor (by rw [a.toList_length, t.toList_length])

/-- Twice the same distance leads back. -/
theorem xorDistance_xorDistance (myId id : NodeId) :
    xorDistance myId (xorDistance myId id) = id := by
  refine List.Vector.eq _ _ (Bytes.eq_of_value_eq ?_ ?_)
  · rw [List.Vector.toList_length, List.Vector.toList_length]
  · rw [value_xorDistance, distance, value_xorDistance, distance, ← Nat.xor_assoc, Nat.xor_self,
      Nat.zero_xor]

theorem xorDistance_comm (a b : NodeId) : xorDistance a b = xorDistance b a := by
  refine List.Vector.eq _ _ (Bytes.eq_of_value_eq ?_ ?_)
  · rw [List.Vector.toList_length, List.Vector.toList_length]
  · rw [value_xorDistance, value_xorDistance, distance, distance, Nat.xor_comm]

/-- **The byte-wise comparison is the order of the distances.** Both strings
are as wide as an id, and between strings of one width the lexicographic order
is the numeric one. -/
theorem xorDistanceCmp_eq (a b t : NodeId) :
    xorDistanceCmp a b t = compare (distance a t) (distance b t) := by
  have hlen : ∀ c : NodeId, c.toList.length = t.toList.length :=
    fun c => by rw [c.toList_length, t.toList_length]
  show List.compareLex compare (List.zipWith (· ^^^ ·) a.toList t.toList)
    (List.zipWith (· ^^^ ·) b.toList t.toList) = _
  rw [Bytes.compareLex_eq_compare_value (by simp), Bytes.value_zipWith_xor (hlen a),
    Bytes.value_zipWith_xor (hlen b)]
  rfl

/-- **Distance to a target tells ids apart.** An exclusive or can be undone by
repeating it, so no two ids are equally far from a target, and an order by
distance has no ties. -/
theorem distance_injective (t : NodeId) : Function.Injective (fun a => distance a t) := by
  intro a b h
  have hv : Bytes.value a.toList = Bytes.value b.toList := by
    have hx := congrArg (· ^^^ Bytes.value t.toList) h
    simpa [distance, Nat.xor_assoc] using hx
  exact List.Vector.eq a b (Bytes.eq_of_value_eq (by rw [a.toList_length, b.toList_length]) hv)

theorem distance_lt (a t : NodeId) : distance a t < 2 ^ idBits :=
  Nat.xor_lt_two_pow (value_lt a) (value_lt t)

/-- Leading zeros of a byte count down from its bit length. -/
theorem byteLeadingZeros_eq (byte : UInt8) :
    byteLeadingZeros byte = 8 - byte.toNat.size := by
  unfold byteLeadingZeros
  by_cases h : byte = 0
  · subst h
    rfl
  · have hn : byte.toNat ≠ 0 := fun h0 => h (UInt8.toNat_inj.mp h0)
    have hsize : byte.toNat.size = byte.toNat.log2 + 1 := by
      refine le_antisymm (Nat.size_le.mpr ((Nat.log2_lt hn).mp (Nat.lt_succ_self _))) ?_
      exact Nat.lt_size.mpr (Nat.log2_self_le hn)
    rw [if_neg h, hsize]
    omega

/-- The scan over a byte string counts down from the bit length of the
number it spells. -/
theorem leadingZerosFrom_eq (bs : List UInt8) (zeros : ℕ) :
    leadingZerosFrom zeros bs = zeros + (8 * bs.length - (Bytes.value bs).size) := by
  induction bs generalizing zeros with
  | nil => simp [leadingZerosFrom]
  | cons byte bs ih =>
    have hpow : (256 : ℕ) ^ bs.length = 2 ^ (8 * bs.length) := by
      rw [pow_mul]; norm_num
    have hlt := Bytes.value_lt bs
    rw [hpow] at hlt
    unfold leadingZerosFrom
    rw [Bytes.value_cons, hpow, List.length_cons]
    by_cases h : byte = 0
    · subst h
      have hsize : (Bytes.value bs).size ≤ 8 * bs.length := Nat.size_le.mpr hlt
      rw [if_neg (not_not.mpr rfl), ih]
      show zeros + 8 + (8 * bs.length - (Bytes.value bs).size)
        = zeros + (8 * (bs.length + 1) - (0 * 2 ^ (8 * bs.length) + Bytes.value bs).size)
      rw [Nat.zero_mul, Nat.zero_add]
      omega
    · -- a non-zero byte at the front fixes the bit length
      have hn : 0 < byte.toNat :=
        Nat.pos_of_ne_zero (fun h0 => h (UInt8.toNat_inj.mp h0))
      have hs : 0 < byte.toNat.size := Nat.size_pos.mpr hn
      obtain ⟨m, hm⟩ : ∃ m, byte.toNat.size = m + 1 := ⟨byte.toNat.size - 1, by omega⟩
      have hsize : (byte.toNat * 2 ^ (8 * bs.length) + Bytes.value bs).size
          = byte.toNat.size + 8 * bs.length := by
        refine le_antisymm (Nat.size_le.mpr ?_) ?_
        · have hup : byte.toNat + 1 ≤ 2 ^ byte.toNat.size := Nat.lt_size_self _
          calc byte.toNat * 2 ^ (8 * bs.length) + Bytes.value bs
              < (byte.toNat + 1) * 2 ^ (8 * bs.length) := by rw [add_mul]; omega
            _ ≤ 2 ^ byte.toNat.size * 2 ^ (8 * bs.length) := Nat.mul_le_mul_right _ hup
            _ = 2 ^ (byte.toNat.size + 8 * bs.length) := (pow_add ..).symm
        · have hlo : 2 ^ m ≤ byte.toNat := Nat.lt_size.mp (by omega)
          have hge : 2 ^ (m + 8 * bs.length)
              ≤ byte.toNat * 2 ^ (8 * bs.length) + Bytes.value bs := by
            rw [pow_add]
            exact (Nat.mul_le_mul_right _ hlo).trans (Nat.le_add_right _ _)
          have := Nat.lt_size.mpr hge
          omega
      have hbyte : byte.toNat.size ≤ 8 := Nat.size_le.mpr byte.toNat_lt
      rw [if_pos h, byteLeadingZeros_eq, hsize]
      omega

/-- **Leading zeros count down from the bit length.** -/
theorem leadingZeros_eq (id : NodeId) :
    leadingZeros id = idBits - (Bytes.value id.toList).size := by
  rw [leadingZeros, leadingZerosFrom_eq, id.toList_length, Nat.zero_add]
  rfl

theorem sharedPrefix_eq (a b : NodeId) :
    sharedPrefix a b = idBits - (distance a b).size := by
  rw [sharedPrefix, leadingZeros_eq, value_xorDistance]

theorem size_distance_le (a b : NodeId) : (distance a b).size ≤ idBits :=
  Nat.size_le.mpr (distance_lt a b)

theorem sharedPrefix_comm (a b : NodeId) : sharedPrefix a b = sharedPrefix b a := by
  rw [sharedPrefix_eq, sharedPrefix_eq, distance, distance, Nat.xor_comm]

theorem sharedPrefix_le (a b : NodeId) : sharedPrefix a b ≤ idBits := by
  rw [sharedPrefix_eq]
  exact Nat.sub_le _ _

theorem sharedPrefix_self (a : NodeId) : sharedPrefix a a = idBits := by
  rw [sharedPrefix_eq, distance, Nat.xor_self, Nat.size_zero, Nat.sub_zero]

/-- Two ids share every bit only if they are one. -/
theorem sharedPrefix_lt_of_ne {a b : NodeId} (h : a ≠ b) : sharedPrefix a b < idBits := by
  have hne : distance a b ≠ 0 := by
    intro h0
    refine h (distance_injective b ?_)
    show distance a b = distance b b
    rw [h0, distance, Nat.xor_self]
  have hpos : 0 < (distance a b).size := Nat.size_pos.mpr (Nat.pos_of_ne_zero hne)
  have := size_distance_le a b
  rw [sharedPrefix_eq]
  omega

/-- **Sharing a longer prefix with the target is being nearer to it.** -/
theorem distance_lt_of_sharedPrefix_lt {a b t : NodeId}
    (h : sharedPrefix b t < sharedPrefix a t) : distance a t < distance b t := by
  rw [sharedPrefix_eq, sharedPrefix_eq] at h
  exact Bytes.lt_of_size_lt (by omega)

/-- **Two ids share at least what both share with a third.** -/
theorem min_sharedPrefix_le (a b m : NodeId) :
    min (sharedPrefix a m) (sharedPrefix b m) ≤ sharedPrefix a b := by
  have hmax := Bytes.size_xor_le_max (distance a m) (distance b m)
  have hvia : distance a b = distance a m ^^^ distance b m :=
    Bytes.xor_eq_via _ _ (Bytes.value m.toList)
  rw [← hvia] at hmax
  rw [sharedPrefix_eq, sharedPrefix_eq, sharedPrefix_eq]
  omega

/-- **Where two ids leave a third after different prefixes, they share the
shorter one.** -/
theorem sharedPrefix_of_lt {a b m : NodeId} (h : sharedPrefix b m < sharedPrefix a m) :
    sharedPrefix a b = sharedPrefix b m := by
  rw [sharedPrefix_eq, sharedPrefix_eq] at h
  have hsize : (distance a m).size < (distance b m).size := by omega
  rw [sharedPrefix_eq, sharedPrefix_eq, ← Bytes.size_xor_of_lt hsize]
  show idBits - (Bytes.value a.toList ^^^ Bytes.value b.toList).size = _
  rw [Bytes.xor_eq_via _ _ (Bytes.value m.toList)]
  rfl

/-- **Two ids that leave a third after the same prefix share a longer one**:
over two symbols, both continue with the other symbol. -/
theorem sharedPrefix_lt_of_eq {a b m : NodeId} (h : sharedPrefix a m = sharedPrefix b m)
    (hm : a ≠ m) : sharedPrefix a m < sharedPrefix a b := by
  have hlt := sharedPrefix_lt_of_ne hm
  have ha := size_distance_le a m
  have hb := size_distance_le b m
  rw [sharedPrefix_eq] at hlt
  rw [sharedPrefix_eq, sharedPrefix_eq] at h
  have hsize : (distance a m).size = (distance b m).size := by omega
  have hxor := Bytes.size_xor_lt_of_size_eq hsize (by omega)
  rw [sharedPrefix_eq, sharedPrefix_eq]
  have hvia : distance a b = distance a m ^^^ distance b m :=
    Bytes.xor_eq_via _ _ (Bytes.value m.toList)
  rw [hvia]
  omega

/-- The byte-wise comparison tells ids apart. -/
theorem xorDistanceCmp_eq_eq_iff (a b t : NodeId) : xorDistanceCmp a b t = .eq ↔ a = b := by
  rw [xorDistanceCmp_eq, compare_eq_iff_eq]
  exact ⟨fun h => distance_injective t h, fun h => by rw [h]⟩

/-- An id that shares a longer prefix with the target compares as nearer. -/
theorem xorDistanceCmp_of_sharedPrefix_lt {a b t : NodeId}
    (h : sharedPrefix b t < sharedPrefix a t) : xorDistanceCmp a b t = .lt := by
  rw [xorDistanceCmp_eq, compare_lt_iff_lt]
  exact distance_lt_of_sharedPrefix_lt h

/-- **The ids of the target's own bucket are nearer than those beyond it.** -/
theorem sharedPrefix_lt_of_home {a b t m : NodeId} (ha : sharedPrefix a m = sharedPrefix t m)
    (hb : sharedPrefix t m < sharedPrefix b m) : sharedPrefix b t < sharedPrefix a t := by
  have hne : a ≠ m := by
    rintro rfl
    rw [← ha, sharedPrefix_self] at hb
    exact absurd hb (sharedPrefix_le b a).not_gt
  calc sharedPrefix b t = sharedPrefix t m := sharedPrefix_of_lt hb
    _ = sharedPrefix a m := ha.symm
    _ < sharedPrefix a t := sharedPrefix_lt_of_eq ha hne

/-- **Short of the target's bucket, whoever leaves us earlier is farther away.** -/
theorem sharedPrefix_lt_of_short {b c t m : NodeId} (hb : sharedPrefix c m < sharedPrefix b m)
    (hc : sharedPrefix c m < sharedPrefix t m) : sharedPrefix c t < sharedPrefix b t := by
  rw [sharedPrefix_comm c t, sharedPrefix_of_lt hc]
  exact (lt_min hb hc).trans_le (min_sharedPrefix_le b t m)

/-- **The byte-wise metric is the numeric one, and fits the buckets.** With ids
read as numbers, distances are exclusive ors, the comparison is theirs, and
leading zeros count down from the bit length, so that a longer shared prefix is
a smaller distance. Where the target shares `h` bits with an id of ours, the
ids that share `h` are nearer to it than those that share more, and these are
nearer than those that share fewer.

The last two clauses are what a bucket table is built on. An id that shares
exactly `h` bits with ours continues with the target's bit, so it shares more
with the target than any id that follows ours for longer. Ids that follow ours
for longer all share `h` bits with the target, and ids that leave ours earlier
leave the target at the same place. -/
theorem xor_metric_numeric (a b t : NodeId) :
    Bytes.value (xorDistance a t).toList = Bytes.value a.toList ^^^ Bytes.value t.toList
      ∧ xorDistanceCmp a b t
        = compare (Bytes.value a.toList ^^^ Bytes.value t.toList)
            (Bytes.value b.toList ^^^ Bytes.value t.toList)
      ∧ (xorDistanceCmp a b t = .eq ↔ a = b)
      ∧ leadingZeros a = 256 - (Bytes.value a.toList).size
      ∧ (leadingZeros (xorDistance b t) < leadingZeros (xorDistance a t) →
        xorDistanceCmp a b t = .lt)
      ∧ ∀ (myId : NodeId) (h : ℕ), leadingZeros (xorDistance t myId) = h →
        (leadingZeros (xorDistance a myId) = h → h < leadingZeros (xorDistance b myId) →
          xorDistanceCmp a b t = .lt)
        ∧ (h ≤ leadingZeros (xorDistance a myId) → leadingZeros (xorDistance b myId) < h →
          xorDistanceCmp a b t = .lt) := by
  refine ⟨value_xorDistance a t, xorDistanceCmp_eq a b t, xorDistanceCmp_eq_eq_iff a b t,
    leadingZeros_eq a, xorDistanceCmp_of_sharedPrefix_lt, ?_⟩
  rintro myId h rfl
  constructor
  · intro ha hb
    exact xorDistanceCmp_of_sharedPrefix_lt (sharedPrefix_lt_of_home ha hb)
  · intro ha hb
    exact xorDistanceCmp_of_sharedPrefix_lt (sharedPrefix_lt_of_short (hb.trans_le ha) hb)

/-! ## The routing-table interface

In the program the interface is a trait whose methods all take `&self`, and an
implementation keeps its state behind a lock. With the state passed explicitly
a write returns the table it leaves, and a sequence of writes is a fold, so
that what holds of every reachable table is an induction on the writes. -/

/-- **What a routing table offers**, its state made explicit: the contacts
it answers a query with, offering it a contact, dropping one, and walking
everything it holds. -/
class CloseNodes (τ : Type) where
  /-- The contacts the table answers with for an id. -/
  closeNodes : τ → NodeId → List Contact
  /-- Offer a contact, which the table may keep or ignore. -/
  maybeAddContact : τ → Contact → τ
  /-- Drop a contact, if the table holds exactly it. -/
  removeContact : τ → Contact → τ
  /-- Everything the table holds; a contact may come out twice. -/
  contactsIter : τ → List Contact

/-- A write to a routing table. -/
inductive TableOp where
  /-- Offer a contact. -/
  | maybeAdd (contact : Contact)
  /-- Drop a contact. -/
  | remove (contact : Contact)
deriving DecidableEq

/-- The table after a write. -/
def TableOp.apply {τ : Type} [CloseNodes τ] (table : τ) : TableOp → τ
  | .maybeAdd contact => CloseNodes.maybeAddContact table contact
  | .remove contact => CloseNodes.removeContact table contact

/-- The order of contacts by distance to a target, nearer first. -/
def nearerTo (target : NodeId) (a b : Contact) : Ordering :=
  xorDistanceCmp a.id b.id target

/-- Whether two contacts are one node. -/
def sameId (a b : Contact) : Bool := a.id == b.id

theorem nearerTo_eq (t : NodeId) (a b : Contact) :
    nearerTo t a b = compare (distance a.id t) (distance b.id t) := xorDistanceCmp_eq _ _ _

theorem sameId_iff (t : NodeId) (a b : Contact) :
    sameId a b = true ↔ distance a.id t = distance b.id t := by
  rw [sameId, beq_iff_eq]
  exact ⟨fun h => by rw [h], fun h => distance_injective t h⟩

/-- The nearest of a set are of distinct ids. -/
theorem nodup_ids_of_selects {t : NodeId} {k : ℕ} {T : Set Contact} {r : List Contact}
    (h : Nearest.Selects (fun c => distance c.id t) k T r) : (r.map Contact.id).Nodup :=
  List.pairwise_map.mpr (h.sorted.imp fun hab he => absurd hab (by simp [he]))

/-! ## Refreshing an entry

A table that already holds a node keeps the entry and takes over the
address, since a peer that moved is still the peer. -/

/-- Take over the address of `contact` in the entry for its id. -/
def refresh {n : ℕ} (entries : BoundedVec Contact n) (contact : Contact) :
    BoundedVec Contact n :=
  entries.modifyFirst (fun known => known.id == contact.id)
    (fun known => { known with address := contact.address })

/-- Whether there is an entry for the id of `contact`. -/
def knows {n : ℕ} (entries : BoundedVec Contact n) (contact : Contact) : Bool :=
  entries.toList.any (fun known => known.id == contact.id)

theorem knows_iff {n : ℕ} (entries : BoundedVec Contact n) (contact : Contact) :
    knows entries contact = true ↔ contact.id ∈ entries.toList.map Contact.id := by
  unfold knows
  rw [List.any_eq_true, List.mem_map]
  exact exists_congr (fun a => and_congr_right (fun _ => beq_iff_eq))

/-- Refreshing changes no id. -/
theorem map_id_refresh {n : ℕ} (entries : BoundedVec Contact n) (contact : Contact) :
    (refresh entries contact).toList.map Contact.id = entries.toList.map Contact.id := by
  show (BoundedVec.modifyFirstIn _ _ entries.toList).map Contact.id = _
  induction entries.toList with
  | nil => rfl
  | cons a l ih =>
    unfold BoundedVec.modifyFirstIn
    split
    · rfl
    · rw [List.map_cons, List.map_cons, ih]

/-- **Refreshing puts the contact itself in place of the entry for its id**,
where ids are not repeated. An entry is an id and an address, and the address
is the one taken over, so what is left of the old entry is nothing. -/
theorem mem_refresh {n : ℕ} {entries : BoundedVec Contact n} {contact : Contact}
    (hnodup : (entries.toList.map Contact.id).Nodup)
    (hknown : contact.id ∈ entries.toList.map Contact.id) (x : Contact) :
    x ∈ (refresh entries contact).toList
      ↔ x = contact ∨ (x ∈ entries.toList ∧ x.id ≠ contact.id) := by
  show x ∈ BoundedVec.modifyFirstIn _ _ entries.toList ↔ _
  generalize entries.toList = l at hnodup hknown ⊢
  induction l with
  | nil => exact absurd hknown List.not_mem_nil
  | cons a l ih =>
    rw [List.map_cons, List.nodup_cons] at hnodup
    unfold BoundedVec.modifyFirstIn
    by_cases ha : a.id = contact.id
    · -- the entry is found here, and the rest holds other ids only
      have hrest : ∀ y ∈ l, y.id ≠ contact.id := fun y hy he =>
        hnodup.1 (List.mem_map.mpr ⟨y, hy, he.trans ha.symm⟩)
      have hnew : ({ a with address := contact.address } : Contact) = contact := by
        rw [ha]
      rw [if_pos (beq_iff_eq.mpr ha), hnew, List.mem_cons, List.mem_cons]
      constructor
      · rintro (hx | hx)
        · exact Or.inl hx
        · exact Or.inr ⟨Or.inr hx, hrest x hx⟩
      · rintro (hx | ⟨rfl | hx, hne⟩)
        · exact Or.inl hx
        · exact absurd ha hne
        · exact Or.inr hx
    · have hknown' : contact.id ∈ l.map Contact.id := by
        rw [List.map_cons, List.mem_cons] at hknown
        exact hknown.resolve_left (fun h => ha h.symm)
      rw [if_neg (fun h => ha (beq_iff_eq.mp h)), List.mem_cons, List.mem_cons,
        ih hnodup.2 hknown']
      constructor
      · rintro (rfl | hx | ⟨hx, hne⟩)
        · exact Or.inr ⟨Or.inl rfl, ha⟩
        · exact Or.inl hx
        · exact Or.inr ⟨Or.inr hx, hne⟩
      · rintro (hx | ⟨rfl | hx, hne⟩)
        · exact Or.inr (Or.inl hx)
        · exact Or.inl rfl
        · exact Or.inr (Or.inr ⟨hx, hne⟩)

/-- The reference table: everything offered, in one list. -/
structure DumbBucket where
  /-- The contacts, in the order they were offered. -/
  contacts : List Contact

namespace DumbBucket

/-- Sort the whole table by distance and keep the first `K`. -/
def closeNodes (table : DumbBucket) (id : NodeId) : List Contact :=
  (Nearest.sortBy (nearerTo id) table.contacts).take K

instance : CloseNodes DumbBucket where
  closeNodes := closeNodes
  maybeAddContact table contact := ⟨table.contacts ++ [contact]⟩
  removeContact table contact :=
    match table.contacts.idxOf? contact with
    | some i => ⟨BoundedVec.swapRemoveIn table.contacts i⟩
    | none => table
  contactsIter := contacts

/-- **The reference answers with the `K` nearest**, where no id is held
twice. -/
theorem selects_closeNodes {table : DumbBucket} (h : (table.contacts.map Contact.id).Nodup)
    (t : NodeId) :
    Nearest.Selects (fun c => distance c.id t) K {c | c ∈ table.contacts}
      (table.closeNodes t) :=
  Nearest.selects_sortBy (nearerTo_eq t) K ((List.pairwise_map.mp h).imp
    (fun hab he => hab (distance_injective t he)))

end DumbBucket

end Kademlia
