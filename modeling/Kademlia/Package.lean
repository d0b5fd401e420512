import Kademlia.CloseNodes
import Kademlia.Codec
import Kademlia.HashChain

/-!
# Signed records, latest pointers and stored values

A package's history is a chain of signed version records, each stored under the
hash of its encoding and naming its predecessor by that hash. A signed latest
pointer names the newest record, and is stored under a key made from the domain
and the package.

Hashing and signing come from outside, and enter as a structure of functions.
Nothing is assumed of them here; a result that needs hashes not to collide asks
for it on the byte strings it is about. Encodings are modelled in full, so that
equal encodings being equal records is a theorem (`keyInjOn_recordKey` uses
it), and a reader re-encoding what it decoded is something that can be
computed.

Two things are signed, records and pointers, with the same key and in the same
way. What keeps a signature of one from passing for the other is the tag that
both begin with (`signature_binds`).
-/

namespace Kademlia

/-! ## What comes from outside -/

/-- An owner's public key. -/
abbrev VerifyingKey := List.Vector UInt8 32

/-- An owner's secret key. -/
abbrev SigningKey := List.Vector UInt8 32

/-- A signature. -/
abbrev Signature := List.Vector UInt8 64

/-- **The cryptography the program calls.** -/
structure Crypto where
  /-- The SHA-256 digest of a byte string. -/
  sha256 : List UInt8 → Key
  /-- Read a signature from bytes of unknown origin. -/
  signatureFromSlice : List UInt8 → Option Signature
  /-- Whether a signature of a message verifies under a key. -/
  verify : VerifyingKey → List UInt8 → Signature → Bool
  /-- Sign a message. -/
  sign : SigningKey → List UInt8 → Signature
  /-- The public key of a secret one. -/
  verifyingKey : SigningKey → VerifyingKey

/-- A type with a byte format. -/
class Serialize (T : Type) where
  /-- The format. -/
  codec : Codec T

variable {T : Type}

/-- The encoding of a value. -/
def serialize [Serialize T] (x : T) : Option (List UInt8) := Serialize.codec.encode x

/-- Decode a value, ignoring bytes after it. -/
def deserialize [Serialize T] (bs : List UInt8) : Option T := Serialize.codec.deserialize bs

theorem deserialize_serialize [Serialize T] {x : T} {bs : List UInt8}
    (h : serialize x = some bs) : deserialize bs = some x :=
  Serialize.codec.deserialize_encode h

theorem serialize_injective [Serialize T] {x y : T} {bs : List UInt8}
    (hx : serialize x = some bs) (hy : serialize y = some bs) : x = y :=
  Serialize.codec.encode_injective hx hy

/-! ## The records

The order of the fields is the order they are written in. A version record and
a latest pointer both begin with a tag that says which of the two it is, and
readers check it. -/

/-- A `major.minor.patch` version. -/
structure Version where
  /-- First number, compared first. -/
  major : UInt32
  /-- Second number. -/
  minor : UInt32
  /-- Third number. -/
  patch : UInt32
deriving DecidableEq

/-- The numbers of a version, in the order they are compared in. -/
def Version.numbers (v : Version) : ℕ ×ₗ ℕ ×ₗ ℕ :=
  toLex (v.major.toNat, toLex (v.minor.toNat, v.patch.toNat))

theorem Version.numbers_injective : Function.Injective Version.numbers := by
  rintro ⟨a, b, c⟩ ⟨a', b', c'⟩ h
  obtain ⟨ha, hbc⟩ := Prod.ext_iff.mp (congrArg ofLex h)
  obtain ⟨hb, hc⟩ := Prod.ext_iff.mp (congrArg ofLex hbc)
  exact Version.mk.injEq .. ▸
    ⟨UInt32.toNat_inj.mp ha, UInt32.toNat_inj.mp hb, UInt32.toNat_inj.mp hc⟩

instance : LinearOrder Version := LinearOrder.lift' Version.numbers Version.numbers_injective

/-- A body with the owner's signature over its hash. -/
structure Signed (T : Type) where
  /-- What is signed. -/
  body : T
  /-- The signature, as it came. -/
  sig : List UInt8
deriving DecidableEq

/-- A published version: its blob, and the record of the version before. -/
structure VersionRecord where
  /-- Tells a version record from other signed bodies. -/
  tag : String
  /-- The owner's domain. -/
  domain : String
  /-- The package. -/
  package : String
  /-- The version published. -/
  version : Version
  /-- The key of the blob. -/
  blobHash : Key
  /-- The key of the preceding record. -/
  prev : Key
deriving DecidableEq

/-- The newest version of a package. -/
structure LatestPointer where
  /-- Tells a latest pointer from other signed bodies. -/
  tag : String
  /-- The owner's domain. -/
  domain : String
  /-- The package. -/
  package : String
  /-- The newest version. -/
  version : Version
  /-- The key of its record. -/
  versionRecordHash : Key
deriving DecidableEq

/-- The tag of a version record. -/
def versionRecordTag : String := "version-record"

/-- The tag of a latest pointer. -/
def latestPointerTag : String := "latest-pointer"

instance : Serialize Key := ⟨Codec.byte.array idBytes⟩

instance : Serialize Version :=
  ⟨(Codec.u32.prod (Codec.u32.prod Codec.u32)).imap
    (fun p => ⟨p.1, p.2.1, p.2.2⟩) (fun v => (v.major, v.minor, v.patch)) (fun _ => rfl)⟩

instance : Serialize VersionRecord :=
  ⟨(Codec.string.prod (Codec.string.prod (Codec.string.prod
      (Serialize.codec.prod (Serialize.codec.prod Serialize.codec))))).imap
    (fun p => ⟨p.1, p.2.1, p.2.2.1, p.2.2.2.1, p.2.2.2.2.1, p.2.2.2.2.2⟩)
    (fun r => (r.tag, r.domain, r.package, r.version, r.blobHash, r.prev)) (fun _ => rfl)⟩

instance : Serialize LatestPointer :=
  ⟨(Codec.string.prod (Codec.string.prod (Codec.string.prod
      (Serialize.codec.prod Serialize.codec)))).imap
    (fun p => ⟨p.1, p.2.1, p.2.2.1, p.2.2.2.1, p.2.2.2.2⟩)
    (fun r => (r.tag, r.domain, r.package, r.version, r.versionRecordHash)) (fun _ => rfl)⟩

instance [Serialize T] : Serialize (Signed T) :=
  ⟨(Serialize.codec.prod (Codec.byte.vec)).imap
    (fun p => ⟨p.1, p.2⟩) (fun s => (s.body, s.sig)) (fun _ => rfl)⟩

/-- What the network stores: a blob under its own hash, or a latest pointer
under the key of its package. -/
inductive Value where
  /-- Bytes, stored under their hash. -/
  | blob (bytes : List UInt8)
  /-- A package's latest pointer. -/
  | latest (pointer : Signed LatestPointer)
deriving DecidableEq

instance : Serialize Value :=
  ⟨(Codec.byte.vec.sum Serialize.codec).imap
    (fun x => match x with
      | .inl bytes => .blob bytes
      | .inr pointer => .latest pointer)
    (fun v => match v with
      | .blob bytes => .inl bytes
      | .latest pointer => .inr pointer)
    (fun v => by cases v <;> rfl)⟩

/-! ## Keys and signatures

A value may be stored under one key only, which is computed from the value. For
a blob it is the hash of its bytes, so whoever holds the key can check the
blob. For a pointer it is the hash of a text made from the domain and the
package: every pointer of a package goes under one key, and what tells them
apart is the version. -/

section Keys

variable (crypto : Crypto)

/-- The SHA-256 digest of bytes. -/
def hashBytes (data : List UInt8) : Key := crypto.sha256 data

/-- The key of a stored value. -/
def keyForValue (value : List UInt8) : Key := hashBytes crypto value

/-- The key a signed record is stored under: the hash of its encoding. -/
def recordKey (record : Signed VersionRecord) : Option Key :=
  (serialize record).map (hashBytes crypto)

/-- The text a package's latest key is the hash of. -/
def latestText (domain package : String) : String := domain ++ ":" ++ package ++ ":latest"

/-- The key of a package's latest pointer. -/
def latestKey (domain package : String) : Key :=
  hashBytes crypto (Codec.textBytes (latestText domain package))

/-- The hash of a body's encoding. -/
def bodyHash [Serialize T] (body : T) : Option Key := (serialize body).map (hashBytes crypto)

/-- Sign a body with the owner's secret key. -/
def sign [Serialize T] (body : T) (key : SigningKey) : Option (Signed T) := do
  let hash ← bodyHash crypto body
  some ⟨body, (crypto.sign key hash.toList).toList⟩

/-- Whether the signature is one of this body by `owner`. -/
def Signed.verify [Serialize T] (signed : Signed T) (owner : VerifyingKey) : Bool :=
  match crypto.signatureFromSlice signed.sig with
  | none => false
  | some sig =>
    match bodyHash crypto signed.body with
    | none => false
    | some hash => crypto.verify owner hash.toList sig

/-- Whether a pointer is a latest pointer signed by `owner`, for a domain
without a colon. -/
def latestIsValid (pointer : Signed LatestPointer) (owner : VerifyingKey) : Bool :=
  pointer.body.tag == latestPointerTag && !pointer.body.domain.toList.contains ':'
    && pointer.verify crypto owner

/-- The only key a value may be stored under. -/
def Value.key : Value → Key
  | .blob bytes => keyForValue crypto bytes
  | .latest pointer => latestKey crypto pointer.body.domain pointer.body.package

end Keys

/-! ## What keys determine

Where hashes do not collide on the byte strings at hand, the key of a record
determines the record. The text of a latest key determines domain and package
as long as the domain has no colon, which is why a pointer for any other domain
is invalid. -/

/-- The encodings of a set of records. -/
def encodings (S : Set (Signed VersionRecord)) : Set (List UInt8) :=
  {bs | ∃ record ∈ S, serialize record = some bs}

theorem encodings_mono {S T : Set (Signed VersionRecord)} (h : S ⊆ T) :
    encodings S ⊆ encodings T := fun _ ⟨record, hmem, hbs⟩ => ⟨record, h hmem, hbs⟩

/-- **Where hashes of encodings do not collide, keys tell records apart**: one
hash is one encoding, and one encoding is one record. -/
theorem keyInjOn_recordKey {crypto : Crypto} {S : Set (Signed VersionRecord)}
    (hinj : Set.InjOn crypto.sha256 (encodings S)) :
    HashChain.KeyInjOn (recordKey crypto) S := by
  intro a ha b hb k hka hkb
  obtain ⟨bs, hbs, rfl⟩ := Option.map_eq_some_iff.mp hka
  obtain ⟨bs', hbs', hk⟩ := Option.map_eq_some_iff.mp hkb
  obtain rfl := hinj ⟨b, hb, hbs'⟩ ⟨a, ha, hbs⟩ hk
  exact serialize_injective hbs hbs'

/-- A valid pointer's domain has no colon. -/
theorem not_mem_of_latestIsValid {crypto : Crypto} {pointer : Signed LatestPointer}
    {owner : VerifyingKey} (h : latestIsValid crypto pointer owner = true) :
    ':' ∉ pointer.body.domain.toList := by
  unfold latestIsValid at h
  simp only [Bool.and_eq_true, Bool.not_eq_true', List.contains_eq_mem,
    decide_eq_false_iff_not] at h
  exact h.1.2

/-- What precedes the first occurrence of an element is determined. -/
theorem eq_of_append_cons {β : Type} {c : β} :
    ∀ {l l' r r' : List β}, c ∉ l → c ∉ l' → l ++ c :: r = l' ++ c :: r' → l = l' ∧ r = r'
  | [], [], _, _, _, _, h => ⟨rfl, (List.cons.inj h).2⟩
  | [], b :: l', _, _, _, hl', h =>
    absurd (List.mem_cons.mpr (Or.inl (List.cons.inj h).1)) hl'
  | b :: l, [], _, _, hl, _, h =>
    absurd (List.mem_cons.mpr (Or.inl (List.cons.inj h).1.symm)) hl
  | b :: l, b' :: l', r, r', hl, hl', h => by
    obtain ⟨hb, htail⟩ := List.cons.inj h
    obtain ⟨heq, hr⟩ := eq_of_append_cons (fun hc => hl (List.mem_cons_of_mem b hc))
      (fun hc => hl' (List.mem_cons_of_mem b' hc)) htail
    exact ⟨by rw [hb, heq], hr⟩

/-- **The text of a latest key determines domain and package**, for domains
without a colon: the domain ends at the first colon, and what comes after the
package is fixed. The package may contain colons. -/
theorem latestText_inj {d p d' p' : String} (hd : ':' ∉ d.toList) (hd' : ':' ∉ d'.toList)
    (h : latestText d p = latestText d' p') : d = d' ∧ p = p' := by
  have hchars : ∀ e q : String, (latestText e q).toList
      = e.toList ++ ':' :: (q.toList ++ ":latest".toList) := by
    intro e q
    unfold latestText
    simp [String.toList_append]
  have hlist := congrArg String.toList h
  rw [hchars, hchars] at hlist
  obtain ⟨hdom, hrest⟩ := eq_of_append_cons hd hd' hlist
  exact ⟨String.toList_inj.mp hdom, String.toList_inj.mp (List.append_cancel_right hrest)⟩

/-! ## A history of two versions

A concrete instance for the results that assume something of the
cryptography. Digests and signatures are given by a table, which holds the
SHA-256 digests and Ed25519 signatures of the byte strings that occur. -/

/-- Cryptography that knows the digests and the signatures in a table. -/
def Crypto.ofTable (digests : List (List UInt8 × Key))
    (signatures : List (SigningKey × List UInt8 × Signature))
    (keys : List (SigningKey × VerifyingKey)) : Crypto where
  sha256 data := (digests.lookup data).getD (List.Vector.replicate _ 0)
  signatureFromSlice bytes := if h : bytes.length = 64 then some ⟨bytes, h⟩ else none
  verify owner message sig := signatures.any (fun e =>
    keys.lookup e.1 == some owner && e.2.1 == message && e.2.2 == sig)
  sign key message := ((signatures.find? (fun e => e.1 == key && e.2.1 == message)).map
    (fun e => e.2.2)).getD (List.Vector.replicate _ 0)
  verifyingKey key := (keys.lookup key).getD (List.Vector.replicate _ 0)

/-- Where the digests of a table differ, they do not collide on it. -/
theorem injOn_ofTable {digests : List (List UInt8 × Key)}
    {signatures : List (SigningKey × List UInt8 × Signature)}
    {keys : List (SigningKey × VerifyingKey)} (h : (digests.map Prod.snd).Nodup) :
    Set.InjOn (Crypto.ofTable digests signatures keys).sha256
      {bs | bs ∈ digests.map Prod.fst} := by
  have hfind : ∀ bs ∈ digests.map Prod.fst,
      (bs, (Crypto.ofTable digests signatures keys).sha256 bs) ∈ digests := by
    intro bs hbs
    show (bs, (digests.lookup bs).getD _) ∈ digests
    cases hlook : digests.lookup bs with
    | none =>
      obtain ⟨e, he, rfl⟩ := List.mem_map.mp hbs
      simpa using List.lookup_eq_none_iff.mp hlook e he
    | some key =>
      obtain ⟨l, r, rfl, -⟩ := List.lookup_eq_some_iff.mp hlook
      exact List.mem_append_right _ List.mem_cons_self
  intro a ha b hb hab
  have heq := List.inj_on_of_nodup_map h (hfind a ha) (hfind b hb) hab
  exact (Prod.ext_iff.mp heq).1

namespace Sample

/-- A number in `w` bytes, highest first. -/
def bytes (w n : ℕ) : List.Vector UInt8 w :=
  ⟨(Codec.toLE w n).reverse, by rw [List.length_reverse, Codec.length_toLE]⟩

/-- The owner's secret key. -/
def signingKey : SigningKey := ⟨List.replicate 32 1, rfl⟩

/-- The owner's public key. -/
def owner : VerifyingKey :=
  bytes 32 0x8a88e3dd7409f195fd52db2d3cba5d72ca6709bf1d94121bf3748801b40f6f5c

/-- A signature, in two halves. -/
def signature (r s : ℕ) : List UInt8 := (bytes 32 r).toList ++ (bytes 32 s).toList

/-- A record of package `p` on domain `a`. -/
def record (patch : UInt32) (blob prev r s : ℕ) : Signed VersionRecord :=
  ⟨⟨versionRecordTag, "a", "p", ⟨0, 0, patch⟩, bytes 32 blob, bytes 32 prev⟩, signature r s⟩

/-- A latest pointer of package `p` on domain `a`. -/
def pointer (patch : UInt32) (head r s : ℕ) : Signed LatestPointer :=
  ⟨⟨latestPointerTag, "a", "p", ⟨0, 0, patch⟩, bytes 32 head⟩, signature r s⟩

/-- Version 0.0.1, with the blob `x`. -/
def first : Signed VersionRecord :=
  record 1 0x2d711642b726b04401627ca9fbac32f5c8530fb1903cc4db02258717921a4881 0
    0x591ab7f07ca72d7f2939a17d404821029814af0c1536cae7b8a9b7a1502710b7
    0xfca377357530ec95d183f1f1733dc839549bc55d3cbd6441d57a83cffc80dd0b

/-- Version 0.0.2 on top of it, with the blob `y`. -/
def second : Signed VersionRecord :=
  record 2 0xa1fce4363854ff888cff4b8e7875d600c2682390412a8cf79b37d0b11148b0fa
    0x6b8ce0a326d3a73ebc1cabf5086893f82a08cc7db34d639bfeb829ab648bb7cb
    0xc59224f7cae0769bb7ccf5a0b73ca15b513ffc381732b427adae2768b10e140e
    0x59ed7c1962197577986ae41fe890816aa0875ccf439e0daec5970733c505ae0b

/-- Another version 0.0.1, with the blob `y`. -/
def fork : Signed VersionRecord :=
  record 1 0xa1fce4363854ff888cff4b8e7875d600c2682390412a8cf79b37d0b11148b0fa 0
    0x1277bcfba774c7b551401f8dd7e8c77ed0e93f15fd9e95e355c4fc8dd10cc9fb
    0x1010636eeebc85b867d795ddbafb53f156df61a75cbed25daf93f7472d94e308

/-- The pointer to `first`. -/
def firstPointer : Signed LatestPointer :=
  pointer 1 0x6b8ce0a326d3a73ebc1cabf5086893f82a08cc7db34d639bfeb829ab648bb7cb
    0x7545ffc148440c0fa6d0ba434fcec6b3a9e395f0eb9662affc05a18e0eb1ef5d
    0x7e0dd1ea36552964bcd60b923a81f43d26f2d4b9d64551e05d1dcac5183a660a

/-- The pointer to `second`. -/
def secondPointer : Signed LatestPointer :=
  pointer 2 0x882c39dd777b64041375b78de3d750d615b754580a1c1b9a680eb8c53e4dec8c
    0x51d94f7a8991f630a7422814b911f96651c55918d78376db4484891c047b582d
    0x261b5376a534042eeee39a56a28ebd5023d3f19d5d36ddd95a0dab95b3a9280c

/-- The pointer to `fork`. -/
def forkPointer : Signed LatestPointer :=
  pointer 1 0x80cc9d2be714860bf668573d6aa5faf3f026fb89b0f8f42b37556b0bf9d7bcbb
    0xa0eff5f4c1b9bd359ba5ce9ad30ddec213726bfaba27c264198c53bf40b381a6
    0x2408f0d5674f97a64013834537197c43de4f6d4e9810e02ff1e94dd8325eb005

/-- The encoding of a value that has one. -/
def encoding [Serialize T] (x : T) : List UInt8 := (serialize x).getD []

/-- The digests of what is hashed: bodies, records, the text of the latest
key, and the blobs. -/
def digests : List (List UInt8 × Key) :=
  [(encoding first.body,
      bytes 32 0xd68983d1db938f93f588bfacda69b7de49641842eb22fe082fc750f24df47d3f),
    (encoding second.body,
      bytes 32 0xb34cad8ad9bd92fb35bc507283ac3aaf3e64dcd70a5a88c0efac205af83c1e41),
    (encoding fork.body,
      bytes 32 0x9d9509275d45998faecb45d9335ab262167bc1c296ab09bacd4ee09efcca653c),
    (encoding firstPointer.body,
      bytes 32 0x3cec49c942cd5be07275a33de2fc93efafd5a5b636abe4b6a4184a1a7dc885df),
    (encoding secondPointer.body,
      bytes 32 0x02363a62265e247adea9202d9c7a88091e153211fdf849ccb9141cea28cfb8fb),
    (encoding forkPointer.body,
      bytes 32 0x8edc1f87a38d3bb6d73bdd5e5a7a8dc265b9ddc4e422ed01ed57f68851d0a09e),
    (encoding first, bytes 32 0x6b8ce0a326d3a73ebc1cabf5086893f82a08cc7db34d639bfeb829ab648bb7cb),
    (encoding second, bytes 32 0x882c39dd777b64041375b78de3d750d615b754580a1c1b9a680eb8c53e4dec8c),
    (encoding fork, bytes 32 0x80cc9d2be714860bf668573d6aa5faf3f026fb89b0f8f42b37556b0bf9d7bcbb),
    (Codec.textBytes "a:p:latest",
      bytes 32 0x5e666f1a20829da205130a22b7096ff2458382e1cd28330b77b51155285d250f),
    (Codec.textBytes "x",
      bytes 32 0x2d711642b726b04401627ca9fbac32f5c8530fb1903cc4db02258717921a4881),
    (Codec.textBytes "y",
      bytes 32 0xa1fce4363854ff888cff4b8e7875d600c2682390412a8cf79b37d0b11148b0fa)]

/-- The signatures of the bodies, by digest. -/
def signatures : List (SigningKey × List UInt8 × Signature) :=
  [(0xd68983d1db938f93f588bfacda69b7de49641842eb22fe082fc750f24df47d3f, first.sig),
    (0xb34cad8ad9bd92fb35bc507283ac3aaf3e64dcd70a5a88c0efac205af83c1e41, second.sig),
    (0x9d9509275d45998faecb45d9335ab262167bc1c296ab09bacd4ee09efcca653c, fork.sig),
    (0x3cec49c942cd5be07275a33de2fc93efafd5a5b636abe4b6a4184a1a7dc885df, firstPointer.sig),
    (0x02363a62265e247adea9202d9c7a88091e153211fdf849ccb9141cea28cfb8fb, secondPointer.sig),
    (0x8edc1f87a38d3bb6d73bdd5e5a7a8dc265b9ddc4e422ed01ed57f68851d0a09e, forkPointer.sig)].filterMap
    (fun e : ℕ × List UInt8 => if h : e.2.length = 64
      then some (signingKey, (bytes 32 e.1).toList, ⟨e.2, h⟩) else none)

/-- The cryptography of this history. -/
def crypto : Crypto := Crypto.ofTable digests signatures [(signingKey, owner)]

/-- No two digests of the table are equal. -/
theorem injOn_sha256 : Set.InjOn crypto.sha256 {bs | bs ∈ digests.map Prod.fst} :=
  injOn_ofTable (by decide +kernel)

/-- Nor of encodings that are in the table. -/
theorem injOn_encodings {l : List (Signed VersionRecord)}
    (h : ∀ r ∈ l, ∀ bs ∈ serialize r, bs ∈ digests.map Prod.fst) :
    Set.InjOn crypto.sha256 (encodings {r | r ∈ l}) :=
  injOn_sha256.mono (fun bs ⟨r, hr, hbs⟩ => h r hr bs hbs)

end Sample

/-! ## Signed bodies told apart

A signature is over the hash of a body's encoding and nothing else, so what
keeps it from being moved to another body is that encodings differ: within
a type because a format writes different values differently, and across the
two types because both write their tag first. -/

/-- **A signature made with a key for a digest verifies for no other**, under
whatever key it is checked. -/
def Crypto.Binds (crypto : Crypto) (key : SigningKey) (digest : Key) : Prop :=
  ∀ (owner : VerifyingKey) (other : Key) (s : Signature),
    crypto.signatureFromSlice (crypto.sign key digest.toList).toList = some s →
      crypto.verify owner other.toList s = true → other = digest

/-- **A signature made with a key for a digest verifies for it**, under the
public key. -/
def Crypto.Signs (crypto : Crypto) (key : SigningKey) (digest : Key) : Prop :=
  ∃ s, crypto.signatureFromSlice (crypto.sign key digest.toList).toList = some s
    ∧ crypto.verify (crypto.verifyingKey key) digest.toList s = true

instance (crypto : Crypto) (key : SigningKey) (digest : Key) :
    Decidable (crypto.Signs key digest) :=
  inferInstanceAs (Decidable (∃ s,
    s ∈ crypto.signatureFromSlice (crypto.sign key digest.toList).toList
      ∧ crypto.verify (crypto.verifyingKey key) digest.toList s = true))

/-- What was signed: the hash of the encoding. -/
theorem exists_of_sign [Serialize T] {crypto : Crypto} {body : T} {key : SigningKey}
    {signed : Signed T} (h : sign crypto body key = some signed) :
    ∃ bs, serialize body = some bs
      ∧ signed.sig = (crypto.sign key (crypto.sha256 bs).toList).toList := by
  obtain ⟨hash, hhash, h⟩ := Option.bind_eq_some_iff.mp h
  obtain ⟨bs, hbs, rfl⟩ := Option.map_eq_some_iff.mp hhash
  exact ⟨bs, hbs, (congrArg Signed.sig (Option.some.inj h)).symm⟩

/-- What a signature that verifies is of. -/
theorem exists_of_verify [Serialize T] {crypto : Crypto} {signed : Signed T}
    {owner : VerifyingKey} (h : signed.verify crypto owner = true) :
    ∃ s bs, crypto.signatureFromSlice signed.sig = some s ∧ serialize signed.body = some bs
      ∧ crypto.verify owner (crypto.sha256 bs).toList s = true := by
  unfold Signed.verify at h
  split at h
  · cases h
  · next s hs =>
    split at h
    · cases h
    · next hash hhash =>
      obtain ⟨bs, hbs, rfl⟩ := Option.map_eq_some_iff.mp hhash
      exact ⟨s, bs, hs, hbs, h⟩

/-- What is signed verifies. -/
theorem verify_of_sign [Serialize T] {crypto : Crypto} {body : T} {key : SigningKey}
    {signed : Signed T} (h : sign crypto body key = some signed)
    (hsigns : ∀ bs ∈ serialize body, crypto.Signs key (crypto.sha256 bs)) :
    signed.verify crypto (crypto.verifyingKey key) = true := by
  obtain ⟨hash, hhash, h⟩ := Option.bind_eq_some_iff.mp h
  obtain ⟨bs, hbs, rfl⟩ := Option.map_eq_some_iff.mp hhash
  obtain ⟨s, hs, hverify⟩ := hsigns bs hbs
  cases h
  unfold Signed.verify
  rw [show bodyHash crypto body = some (hashBytes crypto bs) from hhash]
  dsimp only [hashBytes]
  rw [hs]
  exact hverify

/-- What an owner signs: a version record, or a latest pointer. -/
inductive Body where
  /-- A published version. -/
  | record (r : VersionRecord)
  /-- The newest version of a package. -/
  | pointer (p : LatestPointer)
deriving DecidableEq

namespace Body

/-- A body's own tag. -/
def tag : Body → String
  | .record r => r.tag
  | .pointer p => p.tag

/-- The tag a reader expects on a body of its type. -/
def expectedTag : Body → String
  | .record _ => versionRecordTag
  | .pointer _ => latestPointerTag

/-- A body with the tag of its type. -/
def Tagged (body : Body) : Prop := body.tag = body.expectedTag

/-- The encoding that is hashed and signed. -/
def encoding : Body → Option (List UInt8)
  | .record r => serialize r
  | .pointer p => serialize p

/-- The encodings of a set of bodies. -/
def encodings (S : Set Body) : Set (List UInt8) := {bs | ∃ body ∈ S, body.encoding = some bs}

/-- The signature made for a body. -/
def signature (crypto : Crypto) (key : SigningKey) : Body → Option (List UInt8)
  | .record r => (sign crypto r key).map Signed.sig
  | .pointer p => (sign crypto p key).map Signed.sig

/-- Whether a signature passes for a body: the tag is the one expected, and
the signature verifies. -/
def passes (crypto : Crypto) (owner : VerifyingKey) (sig : List UInt8) : Body → Bool
  | .record r => r.tag == versionRecordTag && (Signed.mk r sig).verify crypto owner
  | .pointer p => p.tag == latestPointerTag && (Signed.mk p sig).verify crypto owner

variable {crypto : Crypto} {a b : Body} {sig bs : List UInt8}

/-- **An encoding starts with the tag.** -/
theorem encoding_eq_append (h : a.encoding = some bs) :
    ∃ front rest, Codec.string.encode a.tag = some front ∧ bs = front ++ rest := by
  cases a <;>
  · obtain ⟨front, hfront, h⟩ := Option.bind_eq_some_iff.mp h
    obtain ⟨rest, -, h⟩ := Option.bind_eq_some_iff.mp h
    exact ⟨front, rest, hfront, (Option.some.inj h).symm⟩

/-- Bodies of one encoding have one tag. -/
theorem tag_eq_of_encoding (ha : a.encoding = some bs) (hb : b.encoding = some bs) :
    a.tag = b.tag := by
  obtain ⟨front, rest, hfront, rfl⟩ := encoding_eq_append ha
  obtain ⟨front', rest', hfront', heq⟩ := encoding_eq_append hb
  exact (Codec.string.encode_append_inj hfront hfront' heq).1

/-- **Tagged bodies of one encoding are one body.** -/
theorem Tagged.eq_of_encoding (ha : a.Tagged) (hb : b.Tagged) (hbs : a.encoding = some bs)
    (hbs' : b.encoding = some bs) : a = b := by
  have htag : a.expectedTag = b.expectedTag := by
    rw [← ha, ← hb, tag_eq_of_encoding hbs hbs']
  have hne : versionRecordTag ≠ latestPointerTag := by decide
  cases a <;> cases b
  · exact congrArg Body.record (serialize_injective hbs hbs')
  · exact absurd htag hne
  · exact absurd htag.symm hne
  · exact congrArg Body.pointer (serialize_injective hbs hbs')

theorem exists_of_signature {key : SigningKey} (h : a.signature crypto key = some sig) :
    ∃ bs, a.encoding = some bs ∧ sig = (crypto.sign key (crypto.sha256 bs).toList).toList := by
  cases a <;>
  · obtain ⟨signed, hsigned, rfl⟩ := Option.map_eq_some_iff.mp h
    exact exists_of_sign hsigned

theorem exists_of_passes {owner : VerifyingKey} (h : b.passes crypto owner sig = true) :
    b.Tagged ∧ ∃ s bs, crypto.signatureFromSlice sig = some s ∧ b.encoding = some bs
      ∧ crypto.verify owner (crypto.sha256 bs).toList s = true := by
  cases b <;>
  · obtain ⟨htag, hverify⟩ := Bool.and_eq_true_iff.mp h
    exact ⟨beq_iff_eq.mp htag, exists_of_verify hverify⟩

/-- **Signatures cannot be moved between bodies.** Tagged bodies of equal
encodings are of one type and equal. So where hashes do not collide and a
signature verifies only for the digest it was made for, the signature made for
a body passes for no other, of either type and under any key.

The encodings of the two types begin with the tag, written as a text, and the
tags differ; a format writes different values differently even where more bytes
follow, so a tagged record and a tagged pointer never have one encoding. A body
with a wrong tag could have the encoding of another, which is why a reader has
to check the tag before it believes a signature (`passes`). -/
theorem signature_binds (crypto : Crypto) :
    (∀ a b : Body, a.Tagged → b.Tagged →
        ∀ bs, a.encoding = some bs → b.encoding = some bs → a = b)
      ∧ ∀ (a : Body) (S : Set Body) (key : SigningKey), a.Tagged → a ∈ S →
        Set.InjOn crypto.sha256 (encodings S) →
        (∀ bs ∈ a.encoding, crypto.Binds key (crypto.sha256 bs)) →
        ∀ sig, a.signature crypto key = some sig → ∀ b ∈ S, ∀ owner,
          b.passes crypto owner sig = true → b = a := by
  refine ⟨fun a b ha hb bs hbs hbs' => ha.eq_of_encoding hb hbs hbs', ?_⟩
  intro a S key ha haS hinj hbinds sig hsig b hbS owner hb
  obtain ⟨bs, hbs, rfl⟩ := exists_of_signature hsig
  obtain ⟨htagged, s, bs', hs, hbs', hverify⟩ := exists_of_passes hb
  have hdigest := hbinds bs hbs owner (crypto.sha256 bs') s hs hverify
  obtain rfl := hinj ⟨b, hbS, hbs'⟩ ⟨a, haS, hbs⟩ hdigest
  exact htagged.eq_of_encoding ha hbs' hbs

end Body

/-- In a table where no signature occurs twice, a signature verifies only for
the message it is listed with. -/
theorem binds_ofTable {digests : List (List UInt8 × Key)}
    {signatures : List (SigningKey × List UInt8 × Signature)}
    {keys : List (SigningKey × VerifyingKey)} (h : (signatures.map (fun e => e.2.2)).Nodup)
    {key : SigningKey} {digest : Key} {s : Signature} (hmem : (key, digest.toList, s) ∈ signatures)
    (hsign : (Crypto.ofTable digests signatures keys).sign key digest.toList = s) :
    (Crypto.ofTable digests signatures keys).Binds key digest := by
  intro owner other s' hs' hverify
  obtain ⟨e, he, hmatch⟩ := List.any_eq_true.mp hverify
  simp only [Bool.and_eq_true, beq_iff_eq] at hmatch
  have hread : s' = s := by
    have hslice : (Crypto.ofTable digests signatures keys).signatureFromSlice s.toList = some s :=
      dif_pos s.toList_length
    rw [hsign, hslice] at hs'
    exact (Option.some.inj hs').symm
  have heq := List.inj_on_of_nodup_map h he hmem (hmatch.2.trans hread)
  exact List.Vector.eq _ _ (by rw [← hmatch.1.2, heq])

/-- The signature of version 0.0.1 passes for its record, and not for the
pointer to it. -/
theorem Body.signature_binds_sample :
    (Body.record Sample.first.body).passes Sample.crypto Sample.owner Sample.first.sig = true
      ∧ (Body.pointer Sample.firstPointer.body).passes Sample.crypto Sample.owner Sample.first.sig
        = false := by
  refine ⟨by decide +kernel, Bool.eq_false_iff.mpr fun hpasses => ?_⟩
  have hfirst : (Body.record Sample.first.body).encoding
      = some (Sample.encoding Sample.first.body) := by decide +kernel
  have hpointer : (Body.pointer Sample.firstPointer.body).encoding
      = some (Sample.encoding Sample.firstPointer.body) := by decide +kernel
  have hsub : Body.encodings {.record Sample.first.body, .pointer Sample.firstPointer.body}
      ⊆ {bs | bs ∈ Sample.digests.map Prod.fst} := by
    rintro bs ⟨body, rfl | rfl, hbs⟩
    · obtain rfl := Option.some.inj (hfirst.symm.trans hbs)
      show _ ∈ Sample.digests.map Prod.fst
      decide +kernel
    · obtain rfl := Option.some.inj (hpointer.symm.trans hbs)
      show _ ∈ Sample.digests.map Prod.fst
      decide +kernel
  have hbinds : ∀ bs ∈ (Body.record Sample.first.body).encoding,
      Sample.crypto.Binds Sample.signingKey (Sample.crypto.sha256 bs) := by
    intro bs hbs
    obtain rfl := Option.some.inj (hfirst.symm.trans hbs)
    exact binds_ofTable (by decide +kernel)
      (s := ⟨Sample.first.sig, by decide +kernel⟩) (by decide +kernel)
      (List.Vector.eq _ _ (by decide +kernel))
  obtain ⟨-, hmoved⟩ := Body.signature_binds Sample.crypto
  exact nomatch hmoved (.record Sample.first.body) _ Sample.signingKey rfl (Or.inl rfl)
    (Sample.injOn_sha256.mono hsub) hbinds Sample.first.sig (by decide +kernel) _ (Or.inr rfl)
    Sample.owner hpasses

end Kademlia
