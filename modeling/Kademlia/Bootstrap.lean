import Kademlia.HandleRpc
import Kademlia.Lookup

/-!
# Joining a network

A node that joins knows the address of one other node, the seed. It asks the
seed for its id, takes it into its routing table, and looks up its own id,
which fills the table with the nodes nearest to it and makes it known to them.
The far side of the id space is not reached by that. So the node then looks up
an id at random in every bucket farther away than its nearest neighbour.

A random id of a bucket is made by drawing a distance and setting its front:
as many zero bits as the bucket's index says, and a one after them. Bits are
written byte by byte, and the front ends within a byte, of which one part is
set and the other is left as drawn (`mark`). What comes out is an id of the
bucket, and every id of the bucket comes out for some draw.
-/

namespace Kademlia

/-! ## A random id of a bucket

The program masks one byte and then sets one bit of it, and an index past the
end would stop it. Here such an index leaves no result, and there is a result
for every bucket. -/

/-- Set the first bytes of an id to zero. Past the end there is no result. -/
def zeroFront (n : ℕ) (id : NodeId) : Option NodeId :=
  if h : n ≤ idBytes then
    some ⟨List.replicate n 0 ++ id.toList.drop n, by
      rw [List.length_append, List.length_replicate, List.length_drop, id.toList_length]
      omega⟩
  else none

/-- Update a byte of an id. Past the end there is no result. -/
def updateByte (i : ℕ) (f : UInt8 → UInt8) (id : NodeId) : Option NodeId :=
  if i < idBytes then
    some ⟨id.toList.modify i f, by rw [List.length_modify, id.toList_length]⟩
  else none

/-- An id that shares so many leading bits with ours, made of random bytes. An
index out of range leaves none. -/
def randomIdInBucket (myId : NodeId) (bucket : ℕ) (random : NodeId) : Option NodeId := do
  let distance ← zeroFront (bucket / 8) random
  let distance ← updateByte (bucket / 8) (· &&& 0xFF >>> UInt8.ofNat (bucket % 8)) distance
  let distance ← updateByte (bucket / 8) (· ||| 0x80 >>> UInt8.ofNat (bucket % 8)) distance
  return xorDistance myId distance

/-- What becomes of the byte in which the front ends, after `r` of its bits. -/
def mark (r : ℕ) (byte : UInt8) : UInt8 :=
  (byte &&& 0xFF >>> UInt8.ofNat r) ||| 0x80 >>> UInt8.ofNat r

/-- The byte has `r` leading zeros then, whatever it was. -/
theorem byteLeadingZeros_mark {r : ℕ} (hr : r < 8) (byte : UInt8) :
    mark r byte ≠ 0 ∧ byteLeadingZeros (mark r byte) = r := by
  have hall : ∀ r : Fin 8, ∀ n : Fin 256,
      mark r (UInt8.ofNat n) ≠ 0 ∧ byteLeadingZeros (mark r (UInt8.ofNat n)) = r := by
    decide +kernel
  revert byte
  exact Bytes.forall_byte (fun n => hall ⟨r, hr⟩ n)

/-- A byte is left as it is where it has `r` leading zeros already. -/
theorem mark_byteLeadingZeros (byte : UInt8) :
    byte ≠ 0 → mark (byteLeadingZeros byte) byte = byte := by
  have hall : ∀ n : Fin 256, UInt8.ofNat n ≠ 0 →
      mark (byteLeadingZeros (UInt8.ofNat n)) (UInt8.ofNat n) = UInt8.ofNat n := by
    decide +kernel
  revert byte
  exact Bytes.forall_byte hall

theorem exists_zeroFront {n : ℕ} {id : NodeId} {front rest : List UInt8}
    (h : id.toList = front ++ rest) (hn : front.length = n) :
    ∃ out, zeroFront n id = some out ∧ out.toList = List.replicate n 0 ++ rest := by
  have hle : n ≤ idBytes := by
    have hlen := id.toList_length
    rw [h, List.length_append] at hlen
    omega
  refine ⟨_, dif_pos hle, ?_⟩
  show List.replicate n 0 ++ id.toList.drop n = _
  rw [h, ← hn, List.drop_left]

theorem exists_updateByte {i : ℕ} {id : NodeId} {front rest : List UInt8} {byte : UInt8}
    (f : UInt8 → UInt8) (h : id.toList = front ++ byte :: rest) (hi : front.length = i) :
    ∃ out, updateByte i f id = some out ∧ out.toList = front ++ f byte :: rest := by
  have hlt : i < idBytes := by
    have hlen := id.toList_length
    rw [h, List.length_append, List.length_cons] at hlen
    omega
  refine ⟨_, if_pos hlt, ?_⟩
  show id.toList.modify i f = _
  rw [h, List.modify_eq_take_drop, ← hi, List.take_left, List.drop_left]
  rfl

/-- **What is made of random bytes**: zeros up to the byte in which the front
ends, that byte marked, and the rest as drawn. -/
theorem exists_randomIdInBucket {bucket : ℕ} {random : NodeId} {front rest : List UInt8}
    {byte : UInt8} (h : random.toList = front ++ byte :: rest) (hfront : front.length = bucket / 8)
    (myId : NodeId) :
    ∃ distance, randomIdInBucket myId bucket random = some (xorDistance myId distance)
      ∧ distance.toList = List.replicate (bucket / 8) 0 ++ mark (bucket % 8) byte :: rest := by
  have hzeros : (List.replicate (bucket / 8) (0 : UInt8)).length = bucket / 8 :=
    List.length_replicate
  obtain ⟨zeroed, hzeroed, hzeroed'⟩ := exists_zeroFront h hfront
  obtain ⟨masked, hmasked, hmasked'⟩ :=
    exists_updateByte (· &&& 0xFF >>> UInt8.ofNat (bucket % 8)) hzeroed' hzeros
  obtain ⟨marked, hmarked, hmarked'⟩ :=
    exists_updateByte (· ||| 0x80 >>> UInt8.ofNat (bucket % 8)) hmasked' hzeros
  refine ⟨marked, ?_, hmarked'⟩
  unfold randomIdInBucket
  simp only [Option.bind_eq_bind, hzeroed, hmasked, hmarked, Option.bind_some]
  rfl

/-! ## Leading zeros, byte by byte

Leading zeros are counted over bytes as well, so that an id has `b` of them is
put in terms of bytes first; then the two sides match byte for byte. -/

/-- Bytes that are zero are skipped. -/
theorem leadingZerosFrom_zeros (n zeros : ℕ) (bs : List UInt8) :
    leadingZerosFrom zeros (List.replicate n 0 ++ bs) = leadingZerosFrom (zeros + 8 * n) bs := by
  induction n generalizing zeros with
  | zero => rfl
  | succ n ih =>
    rw [List.replicate_succ, List.cons_append, leadingZerosFrom, if_neg (not_not.mpr rfl), ih]
    congr 1
    omega

/-- The leading zeros of bytes that are not all zero end in one of them. -/
theorem exists_leadingZerosFrom {zeros : ℕ} {bs : List UInt8}
    (h : leadingZerosFrom zeros bs < zeros + 8 * bs.length) :
    ∃ n byte rest, bs = List.replicate n 0 ++ byte :: rest ∧ byte ≠ 0 := by
  induction bs generalizing zeros with
  | nil => exact absurd h (lt_irrefl zeros)
  | cons byte bs ih =>
    by_cases hbyte : byte = 0
    · subst hbyte
      rw [leadingZerosFrom, if_neg (not_not.mpr rfl), List.length_cons] at h
      obtain ⟨n, byte, rest, rfl, hne⟩ := ih (h.trans_le (by omega))
      exact ⟨n + 1, byte, rest, rfl, hne⟩
    · exact ⟨0, byte, bs, rfl, hbyte⟩

/-- **An id has `b` leading zero bits** where it has `b / 8` bytes that are zero
and then one with `b % 8` leading zeros. -/
theorem leadingZeros_eq_iff {id : NodeId} {b : ℕ} (hb : b < idBits) :
    leadingZeros id = b ↔ ∃ byte rest, id.toList = List.replicate (b / 8) 0 ++ byte :: rest
      ∧ byte ≠ 0 ∧ byteLeadingZeros byte = b % 8 := by
  -- a byte that is not zero has fewer than eight
  have hlt : ∀ byte : UInt8, byte ≠ 0 → byteLeadingZeros byte < 8 := by
    intro byte hbyte
    unfold byteLeadingZeros
    rw [if_neg hbyte]
    omega
  have hcount : ∀ (n : ℕ) (byte : UInt8) (rest : List UInt8), byte ≠ 0 →
      leadingZerosFrom 0 (List.replicate n 0 ++ byte :: rest) = 8 * n + byteLeadingZeros byte := by
    intro n byte rest hbyte
    rw [leadingZerosFrom_zeros, leadingZerosFrom, if_pos hbyte, Nat.zero_add]
  unfold leadingZeros
  constructor
  · intro h
    have hlen : leadingZerosFrom 0 id.toList < 0 + 8 * id.toList.length := by
      rw [h, id.toList_length, Nat.zero_add]
      exact hb
    obtain ⟨n, byte, rest, hbytes, hbyte⟩ := exists_leadingZerosFrom hlen
    have hlt' := hlt byte hbyte
    rw [hbytes, hcount n byte rest hbyte] at h
    obtain rfl : n = b / 8 := by omega
    exact ⟨byte, rest, hbytes, hbyte, by omega⟩
  · rintro ⟨byte, rest, hbytes, hbyte, hzeros⟩
    rw [hbytes, hcount _ byte rest hbyte, hzeros]
    omega

/-- The byte in which the front of a bucket ends. -/
theorem exists_byte {bucket : ℕ} (hb : bucket < idBits) (random : NodeId) :
    ∃ front byte rest, random.toList = front ++ byte :: rest ∧ front.length = bucket / 8 := by
  have hlt : bucket / 8 < random.toList.length := by
    rw [random.toList_length]
    exact Nat.div_lt_of_lt_mul hb
  refine ⟨random.toList.take (bucket / 8), random.toList[bucket / 8],
    random.toList.drop (bucket / 8 + 1), ?_, ?_⟩
  · rw [← List.drop_eq_getElem_cons, List.take_append_drop]
  · rw [List.length_take, min_eq_left hlt.le]

/-- **An id of the bucket comes out.** -/
theorem sharedPrefix_randomIdInBucket (myId : NodeId) {bucket : ℕ} (hb : bucket < idBits)
    (random : NodeId) :
    ∃ id, randomIdInBucket myId bucket random = some id ∧ sharedPrefix id myId = bucket := by
  obtain ⟨front, byte, rest, hrandom, hfront⟩ := exists_byte hb random
  obtain ⟨distance, hid, hdistance⟩ := exists_randomIdInBucket hrandom hfront myId
  obtain ⟨hne, hzeros⟩ := byteLeadingZeros_mark (Nat.mod_lt bucket (by decide : 8 > 0)) byte
  refine ⟨_, hid, ?_⟩
  rw [sharedPrefix, xorDistance_comm, xorDistance_xorDistance]
  exact (leadingZeros_eq_iff hb).mpr ⟨_, rest, hdistance, hne, hzeros⟩

/-- **Every id of the bucket comes out**, of its own distance. -/
theorem randomIdInBucket_xorDistance (myId : NodeId) {bucket : ℕ} (hb : bucket < idBits)
    {id : NodeId} (h : sharedPrefix id myId = bucket) :
    randomIdInBucket myId bucket (xorDistance myId id) = some id := by
  rw [sharedPrefix, xorDistance_comm] at h
  obtain ⟨byte, rest, hbytes, hne, hzeros⟩ := (leadingZeros_eq_iff hb).mp h
  obtain ⟨distance, hid, hdistance⟩ :=
    exists_randomIdInBucket hbytes List.length_replicate myId
  -- the front is as it was drawn already
  rw [← hzeros, mark_byteLeadingZeros byte hne, ← hbytes] at hdistance
  rw [hid, List.Vector.toList_injective hdistance, xorDistance_xorDistance]

/-- **Refresh targets land in their bucket**, whatever the random bytes, and
reach all of it. No index is out of range. The distance drawn is left with the
zeros and the one that the bucket calls for, so the id is in it; and a distance
that has them already is left as it is, so an id of the bucket comes out when
its own distance is drawn. -/
theorem randomIdInBucket_exact (myId : NodeId) (bucket : Fin idBits) :
    (∀ random, ∃ id, randomIdInBucket myId bucket random = some id
        ∧ leadingZeros (xorDistance id myId) = bucket
        ∧ ∀ table : StaticBucket K 0 idBits, table.myId = myId → table.bucketIndex id = bucket)
      ∧ ∀ id, leadingZeros (xorDistance id myId) = bucket →
        ∃ random, randomIdInBucket myId bucket random = some id := by
  refine ⟨fun random => ?_, fun id h => ⟨_, randomIdInBucket_xorDistance myId bucket.isLt h⟩⟩
  obtain ⟨id, hid, hshared⟩ := sharedPrefix_randomIdInBucket myId bucket.isLt random
  refine ⟨id, hid, hshared, ?_⟩
  rintro table rfl
  have hindex : (table.bucketIndex id : ℕ) = min (sharedPrefix id table.myId >>> 0) (idBits - 1) :=
    rfl
  rw [hshared, Nat.shiftRight_zero] at hindex
  exact Fin.ext (by omega)

/-! ## Joining

The seed may be anyone and may answer anything. What a join does is told by
what it asks: a ping, a lookup of our own id, and the refreshes. -/

/-- Why a node could not join. -/
inductive BootstrapError where
  /-- The seed did not answer. -/
  | unreachable
  /-- The seed is the node itself. -/
  | selfSeed
deriving DecidableEq

namespace Rpc

variable {τ ν : Type} [CloseNodes τ] (rpc : Rpc τ ν)

omit [CloseNodes τ] in
/-- Ask who is at an address. As it may be the address of no contact, nobody is
forgotten for not answering. -/
def ping (peer : SocketAddr) (world : World τ ν) : Option NodeId × World τ ν :=
  match rpc.outside.settle world [⟨peer, rpc.myContact.id.toList ++ Method.ping.tag ++ []⟩] with
  | (_, .ok reply, world) => (deserialize reply, world)
  | (_, .error _, world) => (none, world)

/-- Look up an id at random in each of some buckets. -/
def refreshBuckets (random : ℕ → NodeId) : List ℕ → World τ ν → Option (World τ ν)
  | [], world => some world
  | bucket :: buckets, world =>
    match randomIdInBucket rpc.myContact.id bucket (random bucket) with
    | none => none
    | some target => refreshBuckets random buckets (rpc.lookupNode target world).2

/-- **Join the network** through a seed, `random` being the bytes drawn for each
bucket: the nodes nearest to us, as found by looking up our own id. An index out
of range leaves no result. -/
def bootstrap (seed : SocketAddr) (random : ℕ → NodeId) (world : World τ ν) :
    Option (Except BootstrapError (List Contact) × World τ ν) :=
  match rpc.ping seed world with
  | (none, world) => some (.error .unreachable, world)
  | (some seedId, world) =>
    if seedId = rpc.myContact.id then some (.error .selfSeed, world)
    else
      let world := offer [⟨seedId, seed⟩] world
      let (contacts, world) := rpc.lookupNode rpc.myContact.id world
      match contacts with
      | [] => some (.ok contacts, world)
      | closestNeighbour :: _ =>
        let cnLeadingZeroes := leadingZeros (xorDistance closestNeighbour.id rpc.myContact.id)
        (rpc.refreshBuckets random (List.range cnLeadingZeroes) world).map
          (fun world => (.ok contacts, world))

end Rpc

section Join

variable {τ ν : Type} [CloseNodes τ] (rpc : Rpc τ ν)

/-- Lookups one after another. -/
def Rpc.lookupAll (targets : List NodeId) (world : World τ ν) : World τ ν :=
  targets.foldl (fun world target => (rpc.lookupNode target world).2) world

/-- **A refresh looks up an id of each bucket**, in order. -/
theorem exists_refreshBuckets (random : ℕ → NodeId) (buckets : List ℕ)
    (h : ∀ bucket ∈ buckets, bucket < idBits) (world : World τ ν) :
    ∃ targets, targets.map (fun id => sharedPrefix id rpc.myContact.id) = buckets
      ∧ rpc.refreshBuckets random buckets world = some (rpc.lookupAll targets world) := by
  induction buckets generalizing world with
  | nil => exact ⟨[], rfl, rfl⟩
  | cons bucket buckets ih =>
    obtain ⟨hbucket, hbuckets⟩ := List.forall_mem_cons.mp h
    obtain ⟨target, htarget, hshared⟩ :=
      sharedPrefix_randomIdInBucket rpc.myContact.id hbucket (random bucket)
    obtain ⟨targets, hmap, hrest⟩ := ih hbuckets (rpc.lookupNode target world).2
    refine ⟨target :: targets, by rw [List.map_cons, hshared, hmap], ?_⟩
    rw [Rpc.refreshBuckets, htarget]
    exact hrest

/-- **Joining has a result, and refreshes what is far.** It fails where the
seed does not answer or is the node itself. Else the contacts are those of a
lookup of our own id, and after it an id of every bucket farther away than the
nearest of them is looked up, and no other. A prefix is no longer than an id,
so no bucket that is counted here is out of range. -/
theorem bootstrap_refreshes (seed : SocketAddr) (random : ℕ → NodeId) (world : World τ ν) :
    ∃ result world', rpc.bootstrap seed random world = some (result, world')
      ∧ (result = .error .unreachable ∧ (rpc.ping seed world).1 = none
        ∨ result = .error .selfSeed ∧ (rpc.ping seed world).1 = some rpc.myContact.id
        ∨ ∃ seedId contacts joined targets, (rpc.ping seed world).1 = some seedId
          ∧ seedId ≠ rpc.myContact.id
          ∧ rpc.lookupNode rpc.myContact.id (Rpc.offer [⟨seedId, seed⟩] (rpc.ping seed world).2)
            = (contacts, joined)
          ∧ result = .ok contacts ∧ world' = rpc.lookupAll targets joined
          ∧ targets.map (fun id => sharedPrefix id rpc.myContact.id)
            = contacts.head?.elim [] (fun c => List.range (sharedPrefix c.id rpc.myContact.id))
          ∧ ∀ id ∈ targets, ∀ c ∈ contacts.head?,
            distance c.id rpc.myContact.id < distance id rpc.myContact.id) := by
  unfold Rpc.bootstrap
  rcases hping : rpc.ping seed world with ⟨seedId, w⟩
  cases seedId with
  | none => exact ⟨_, _, rfl, Or.inl ⟨rfl, rfl⟩⟩
  | some seedId =>
    by_cases hself : seedId = rpc.myContact.id
    · exact ⟨_, _, if_pos hself, Or.inr (Or.inl ⟨rfl, congrArg some hself⟩)⟩
    · dsimp only
      rw [if_neg hself]
      rcases hlookup : rpc.lookupNode rpc.myContact.id (Rpc.offer [⟨seedId, seed⟩] w) with
        ⟨contacts, joined⟩
      cases contacts with
      | nil =>
        refine ⟨_, _, rfl, Or.inr (Or.inr ⟨seedId, [], joined, [], rfl, hself, hlookup, rfl, rfl,
          rfl, ?_⟩)⟩
        exact fun _ hid => absurd hid List.not_mem_nil
      | cons c contacts =>
        obtain ⟨targets, hmap, hrefresh⟩ := exists_refreshBuckets rpc random
          (List.range (sharedPrefix c.id rpc.myContact.id))
          (fun bucket hb => (List.mem_range.mp hb).trans_le (sharedPrefix_le _ _)) joined
        refine ⟨.ok (c :: contacts), rpc.lookupAll targets joined, ?_,
          Or.inr (Or.inr ⟨seedId, c :: contacts, joined, targets, rfl, hself, hlookup, rfl, rfl,
            hmap, ?_⟩)⟩
        · show Option.map _ (rpc.refreshBuckets random (List.range _) joined) = _
          exact congrArg (Option.map _) hrefresh
        · rintro id hid _ ⟨⟩
          refine distance_lt_of_sharedPrefix_lt (List.mem_range.mp ?_)
          exact hmap ▸ List.mem_map_of_mem hid

end Join

end Kademlia
