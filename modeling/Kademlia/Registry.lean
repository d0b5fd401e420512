import Kademlia.ClusterValues
import Kademlia.Install
import Kademlia.Publishing
import Kademlia.Replica

/-!
# A registry, and what a network has of it

What a package manager wants is a registry: a list of versions that grows at
one end, from which any version can be installed. What there is instead is
nodes that each store some blobs and pointers, and clients that look for them.

The registry is written down as what it is (`Registry`). In a network nothing
of it is kept in one place: the pointer is on the nodes near its key, each
record and each blob on the nodes near theirs. What the network as a whole
holds is a property of what each node stores (`Package.Stocked`), which no
request ends, and a client that reads finds what the registry has
(`Package.installPackage`, `Package.showPackage`).

It takes that the owner's key is in DNS and the domain has no colon in it, that
the owner alone proves pointers of the package, which others may replay, and
that hashes do not collide on what is stored (`Package`). And as every read is
a lookup, the network has to be balanced around every key in use: those of
blobs and records, and that of the package's pointer (`Package.keys`).
-/

namespace Kademlia

open HandleRpc

/-! ## The registry

A registry in one place, with the errors of the program. Versions are kept
newest first, and a publication is checked by the program's own preparation;
the one thing besides is that a full history takes no more. -/

namespace Registry

/-- What a client asks of a registry. -/
inductive Operation where
  /-- Publish a version. -/
  | publish (publication : Publication)
  /-- Install a version, or the newest. -/
  | install (requestedVersion : Option Version)
  /-- List the versions. -/
  | list

/-- What it gets. -/
inductive Outcome where
  /-- A receipt. -/
  | published (result : Except PublishError PublishReceipt)
  /-- A package. -/
  | installed (result : Except InstallError InstalledPackage)
  /-- Versions. -/
  | listed (result : Except ChainError (List PublishedVersion))
deriving DecidableEq

/-- The history of what was published, newest first. -/
def records (published : List PreparedPublication) : List (Signed VersionRecord) :=
  published.map PreparedPublication.record

/-- The receipt for a version that is stored in so many copies. -/
def receipt (crypto : Crypto) (copies : ℕ) (prepared : PreparedPublication) : PublishReceipt :=
  ⟨(Stage.blob.value prepared).key crypto, (Stage.record.value prepared).key crypto,
    (Stage.pointer.value prepared).key crypto, copies, copies, copies⟩

section Perform

variable (crypto : Crypto) (owner : VerifyingKey) (domain package : String) (copies : ℕ)

/-- Publish a version on top of what was published. -/
def publish (publication : Publication) (published : List PreparedPublication) :
    Except PublishError PublishReceipt × List PreparedPublication :=
  if crypto.verifyingKey publication.signer ≠ owner then (.error .wrongSigningKey, published)
  else
    match preparePublication crypto domain package publication (records published) with
    | .error e => (.error e, published)
    | .ok prepared =>
      -- a history that is full takes no further pointer
      if maxChainLength ≤ published.length then (.error .pointerNotStored, published)
      else (.ok (receipt crypto copies prepared), prepared :: published)

/-- Install a version that was published, or the newest. -/
def install (requestedVersion : Option Version) (published : List PreparedPublication) :
    Except InstallError InstalledPackage :=
  match requestedVersion, published with
  | _, [] => .error (.invalidHistory .noLatestPointer)
  | none, newest :: _ =>
    .ok ⟨newest.record.body.version, keyForValue crypto newest.blob, newest.blob⟩
  | some version, published =>
    match published.find? (fun p => p.record.body.version == version) with
    | none => .error (.versionNotFound version)
    | some p => .ok ⟨p.record.body.version, keyForValue crypto p.blob, p.blob⟩

/-- List what was published. -/
def list : List PreparedPublication → Except ChainError (List PublishedVersion)
  | [] => .error .noLatestPointer
  | published => .ok (listed (records published))

/-- Carry out an operation. -/
def perform (operation : Operation) (published : List PreparedPublication) :
    Outcome × List PreparedPublication :=
  match operation with
  | .publish publication =>
    let (result, published) := publish crypto owner domain package copies publication published
    (.published result, published)
  | .install requestedVersion => (.installed (install crypto requestedVersion published), published)
  | .list => (.listed (list published), published)

/-- Carry out operations one after another. -/
def run : List Operation → List PreparedPublication → List Outcome
  | [], _ => []
  | operation :: operations, published =>
    (perform crypto owner domain package copies operation published).1
      :: run operations (perform crypto owner domain package copies operation published).2

end Perform

end Registry

/-- Carry out an operation in a network. -/
def Rpc.perform {τ ν : Type} [CloseNodes τ] (rpc : Rpc τ ν) (crypto : Crypto)
    (domain package : String) (operation : Registry.Operation) (world : World τ ν) :
    Registry.Outcome × World τ ν :=
  match operation with
  | .publish publication =>
    let (result, world) := rpc.publishPackage crypto domain package publication world
    (.published result, world)
  | .install requestedVersion =>
    let (result, world) := rpc.installPackage crypto domain package requestedVersion world
    (.installed result, world)
  | .list =>
    let (result, world) := rpc.showPackage crypto domain package world
    (.listed result, world)

/-! ## Walks that find everything

A walk down a history is refused for many reasons. It is not where every record
is found, and the records are those of a valid chain. -/

section Walk

variable {crypto : Crypto} {latest : Signed LatestPointer} {owner : VerifyingKey}
  {domain package : String} {σ : Type} {fetch : σ → Key → Option (List UInt8) × σ}

/-- **A walk whose fetches all succeed returns the records**, in a state that
fetches may change as long as they go on to succeed. -/
theorem walkFrom_of_fetch {P : σ → Prop} {room : ℕ} {current : Key} {seen : List Key}
    {newer : Option Version} {chain tail : List (Signed VersionRecord)} {s : σ}
    (hlink : HashChain.Linked (recordKey crypto) (fun r => r.body.prev) endOfChain current tail)
    (hlen : tail.length ≤ room) (hgen : ∀ r ∈ tail, Genuine crypto owner domain package r)
    (hdesc : Descends latest newer tail)
    (hfetch : ∀ r ∈ tail, ∃ bytes, serialize r = some bytes
      ∧ ∀ s, P s → ∃ s', fetch s (hashBytes crypto bytes) = (some bytes, s') ∧ P s')
    (hseen : ∀ r ∈ tail, ∀ key ∈ seen, recordKey crypto r ≠ some key)
    (hdistinct : tail.Pairwise (fun r r' => recordKey crypto r ≠ recordKey crypto r'))
    (hs : P s) :
    ∃ s', walkFrom crypto latest owner domain package fetch room current seen newer chain s
      = (.ok (chain ++ tail), s') ∧ P s' := by
  induction hlink generalizing room seen newer chain s with
  | @last current record hkey hend =>
    obtain ⟨room, rfl⟩ : ∃ n, room = n + 1 := ⟨room - 1, (Nat.sub_add_cancel hlen).symm⟩
    obtain ⟨bytes, hser, hget⟩ := hfetch record List.mem_cons_self
    obtain rfl : hashBytes crypto bytes = current :=
      Option.some.inj ((recordKey_eq hser).symm.trans hkey)
    obtain ⟨s', heq, hs'⟩ := hget s hs
    refine ⟨s', ?_, hs'⟩
    rw [walkFrom_succ_of_read (fun hin => hseen record List.mem_cons_self _ hin hkey) heq
      (readRecord_ok_iff.mpr ⟨rfl, deserialize_serialize hser, hkey,
        hgen record List.mem_cons_self, hdesc.1⟩), if_pos hend]
  | @cons current record tail hkey hend _ ih =>
    obtain ⟨room, rfl⟩ : ∃ n, room = n + 1 :=
      ⟨room - 1, (Nat.sub_add_cancel ((Nat.le_add_left 1 _).trans hlen)).symm⟩
    rw [List.forall_mem_cons] at hgen hfetch hseen
    obtain ⟨⟨bytes, hser, hget⟩, hfetch⟩ := hfetch
    obtain rfl : hashBytes crypto bytes = current :=
      Option.some.inj ((recordKey_eq hser).symm.trans hkey)
    obtain ⟨hne, hdistinct⟩ := List.pairwise_cons.mp hdistinct
    obtain ⟨s₁, heq, hs₁⟩ := hget s hs
    rw [walkFrom_succ_of_read (fun hin => hseen.1 _ hin hkey) heq
      (readRecord_ok_iff.mpr ⟨rfl, deserialize_serialize hser, hkey, hgen.1, hdesc.1⟩),
      if_neg hend]
    have hseen' : ∀ r ∈ tail, ∀ key ∈ hashBytes crypto bytes :: seen,
        recordKey crypto r ≠ some key := by
      intro r hr key hin
      rcases List.mem_cons.mp hin with rfl | hin
      · exact fun hrk => hne r hr (hkey.trans hrk.symm)
      · exact hseen.2 r hr key hin
    obtain ⟨s', hwalk, hs'⟩ := @ih room _ _ (chain ++ [record]) s₁ (Nat.le_of_succ_le_succ hlen)
      hgen.2 hdesc.2 hfetch hseen' hdistinct hs₁
    exact ⟨s', by rw [hwalk, List.append_assoc]; rfl, hs'⟩

/-- **A valid chain whose records are found is walked.** -/
theorem ValidChain.walkChain {P : σ → Prop} {chain : List (Signed VersionRecord)} {s : σ}
    (h : ValidChain crypto latest owner chain)
    (hinj : Set.InjOn crypto.sha256 (encodings {r | r ∈ chain}))
    (hzero : ∀ r ∈ chain, recordKey crypto r ≠ some endOfChain)
    (hfetch : ∀ r ∈ chain, ∃ bytes, serialize r = some bytes
      ∧ ∀ s, P s → ∃ s', fetch s (hashBytes crypto bytes) = (some bytes, s') ∧ P s')
    (hs : P s) :
    ∃ s', walkChain crypto latest owner latest.body.domain latest.body.package fetch s
      = (.ok chain, s') ∧ P s' := by
  obtain ⟨record, hhead, hkey⟩ := h.linked.key_head
  have hne : latest.body.versionRecordHash ≠ endOfChain := fun hend =>
    hzero record (List.mem_of_mem_head? hhead) (hend ▸ hkey)
  have hdistinct : chain.Pairwise (fun r r' => recordKey crypto r ≠ recordKey crypto r') := by
    refine h.decreasing.imp_of_mem fun {r r'} hr hr' hlt he => ?_
    obtain ⟨key, -, hrkey, -⟩ := h.linked.of_mem hr
    have heq := keyInjOn_recordKey hinj r hr r' hr' key hrkey (he ▸ hrkey)
    rw [heq] at hlt
    exact lt_irrefl _ hlt
  unfold Kademlia.walkChain
  rw [if_neg (by simp [h.pointer_valid, hne])]
  exact walkFrom_of_fetch h.linked h.length_le h.genuine
    (descends_none_iff.mpr ⟨h.head_version, h.decreasing⟩) hfetch
    (fun _ _ _ hin => absurd hin List.not_mem_nil) hdistinct hs

end Walk

namespace Cluster

/-- **A package of a network**, of which nobody but its owner proves pointers. -/
structure Package (cluster : Cluster) where
  /-- The owner's domain. -/
  domain : String
  /-- The package. -/
  package : String
  /-- The owner's key. -/
  owner : VerifyingKey
  /-- It is in DNS. -/
  dns : cluster.dns domain = some owner
  /-- A domain has no colon. -/
  colon : ':' ∉ domain.toList
  /-- What others store proves nothing about the package. -/
  foreign : ∀ body ∈ cluster.foreign, ¬ Proven cluster.crypto owner domain package body
  /-- Hashes do not collide on what is stored, nor with the package's key. -/
  injOn_sha256 : Set.InjOn cluster.crypto.sha256
    (hashed cluster.bodies ∪ {Codec.textBytes (latestText domain package)})

namespace Package

variable {A : Type} [CloseNodes A] {cluster : Cluster} (pkg : cluster.Package)

/-- The key of its pointers. -/
def key : Key := latestKey cluster.crypto pkg.domain pkg.package

/-- **The keys in use**: of what is stored, of the records it comes with, and of the
package's pointers. -/
def keys : Set Key :=
  cluster.crypto.sha256 '' (hashed cluster.bodies
    ∪ {Codec.textBytes (latestText pkg.domain pkg.package)})

theorem key_mem_keys : pkg.key ∈ pkg.keys := ⟨_, Or.inr rfl, rfl⟩

theorem keyForValue_mem_keys {bytes : List UInt8} (h : bytes ∈ hashed cluster.bodies) :
    keyForValue cluster.crypto bytes ∈ pkg.keys := ⟨bytes, Or.inl h, rfl⟩

/-- What may be stored once releases are out: a release, or what proves nothing. -/
def proper (releases : List Release) : Set (List UInt8) :=
  {body | body ∈ cluster.bodies
    ∧ ((∃ e ∈ releases, Delivers cluster.crypto pkg.domain pkg.package body e)
      ∨ ¬ Proven cluster.crypto pkg.owner pkg.domain pkg.package body)}

theorem proper_subset (releases : List Release) : pkg.proper releases ⊆ cluster.bodies :=
  fun _ hbody => hbody.1

theorem proper_mono {releases releases' : List Release} (h : releases ⊆ releases') :
    pkg.proper releases ⊆ pkg.proper releases' :=
  fun _ hbody => ⟨hbody.1, hbody.2.imp_left fun ⟨e, he, hdelivers⟩ => ⟨e, h he, hdelivers⟩⟩

/-! ## The slot of the package

Nodes near the package's key show a pointer. While a version is being published
some show the one before and some the new one, so what is kept is that each
shows one of several, of which a newer one takes the place of an older one and
nothing else does. -/

/-- A slot shows a release, or none. -/
def Shows (slot : Option Value) : Option Release → Prop
  | none => NoPointer slot
  | some e => slot = some (.latest e.1)

/-- Certain nodes show one of several releases. -/
def Showing (T : Set (Option Release)) (S : Set Contact) (c : Contact) (values : Values) : Prop :=
  c ∈ S → ∃ x ∈ T, Shows (values pkg.key) x

/-- **Releases that give way to each other only**: whichever of all releases is
above one of them is one of them too. -/
structure Upward (releases : List Release) (T : Set (Option Release)) : Prop where
  /-- They are releases. -/
  subset : ∀ e, some e ∈ T → e ∈ releases
  /-- Any release may be the first. -/
  first : none ∈ T → ∀ e ∈ releases, some e ∈ T
  /-- A release above one of them is one of them. -/
  above : ∀ e ∈ releases, ∀ e', some e' ∈ T → e'.Above e → some e ∈ T

variable {pkg}

/-- **No proper request ends what a slot shows.** A request that changes the
slot to a pointer proves it, so it delivers a release; the slot gives way to it
only if it is above the one shown, and then it is one of those that may be
shown. -/
theorem stable_showing {releases : List Release}
    (hline : Line cluster.crypto pkg.owner pkg.domain pkg.package releases)
    (hinj : Set.InjOn cluster.crypto.sha256 (encodings {r | ∃ e ∈ releases, r ∈ e.2}))
    {T : Set (Option Release)} (hT : Upward releases T) (S : Set Contact) :
    cluster.Stable (pkg.proper releases) (pkg.Showing T S) := by
  intro c _ values _ hshowing body hbody hc
  obtain ⟨x, hx, hshows⟩ := hshowing hc
  have hcase : body ∈ cluster.bodies
      ∧ ((∃ e ∈ releases, Delivers cluster.crypto pkg.domain pkg.package body e)
        ∨ ¬ Proven cluster.crypto pkg.owner pkg.domain pkg.package body) :=
    hbody.elim id fun hforeign =>
      ⟨cluster.foreign_subset hforeign, Or.inr (pkg.foreign body hforeign)⟩
  obtain ⟨hknown, ⟨e, he, hdelivers⟩ | hproves⟩ := hcase
  · obtain ⟨hempty, hold⟩ := handle_of_delivers hline hinj pkg.dns he hdelivers values
    cases x with
    | none => exact ⟨some e, hT.first hx e he, hempty hshows⟩
    | some old =>
      have hslot := hold old (hT.subset old hx) hshows
      by_cases hbelow : e.Above old
      · rw [if_pos hbelow] at hslot
        exact ⟨some old, hx, hslot⟩
      · rw [if_neg hbelow] at hslot
        refine ⟨some e, ?_, hslot⟩
        rcases hline.trichotomy (hT.subset old hx) he with rfl | habove | habove
        · exact hx
        · exact hT.above e he old hx habove
        · exact absurd habove hbelow
  · have hinj' : Set.InjOn cluster.crypto.sha256
        (hashed {b | b = body} ∪ {Codec.textBytes (latestText pkg.domain pkg.package)}) := by
      refine pkg.injOn_sha256.mono (Set.union_subset_union_left _ ?_)
      rintro bs ⟨b, rfl, hbs⟩
      exact ⟨b, hknown, hbs⟩
    rcases handle_of_not_proven pkg.dns pkg.colon hinj' hproves values with
      hsame | ⟨hno, hno'⟩
    · exact ⟨x, hx, (congrArg (Shows · x) hsame).mpr hshows⟩
    · cases x with
      | none => exact ⟨none, hx, hno'⟩
      | some old => exact absurd hshows (hno old.1)

/-! ## What was published

A list of publications is in order if each continues the one before. The newest
then comes with the records of all, and no two records share a key. -/

/-- A publication as a release. -/
def release (p : PreparedPublication) : Release := (p.pointer, p.proof)

/-- Releases, oldest first. -/
def releases (published : List PreparedPublication) : List Release :=
  (published.map release).reverse

theorem releases_cons (p : PreparedPublication) (published : List PreparedPublication) :
    releases (p :: published) = releases published ++ [release p] := by
  simp [releases]

theorem mem_releases {published : List PreparedPublication} {p : PreparedPublication}
    (hp : p ∈ published) : release p ∈ releases published :=
  List.mem_reverse.mpr (List.mem_map_of_mem hp)

/-- The bytes a record is stored as. -/
def recordBytes (p : PreparedPublication) : List UInt8 := (serialize p.record).getD []

variable (pkg) in
/-- **What was published, newest first, is in order.** -/
structure Catalogue (published : List PreparedPublication) : Prop where
  /-- Each release continues the one before. -/
  line : Line cluster.crypto pkg.owner pkg.domain pkg.package (releases published)
  /-- The newest comes with the whole history. -/
  proof : ∀ p ∈ published.head?, p.proof = Registry.records published
  /-- Records are not the text of a key. -/
  record : ∀ p ∈ published, serialize p.record = some (recordBytes p) ∧ Plain (recordBytes p)
  /-- Nor are blobs, which records name, and which were sent. -/
  blob : ∀ p ∈ published, Plain p.blob
    ∧ p.record.body.blobHash = keyForValue cluster.crypto p.blob ∧ p.blob ∈ hashed cluster.bodies
  /-- Releases were sent. -/
  sent : ∀ p ∈ published, ∃ body ∈ cluster.bodies,
    encodeRequestWithProof pkg.key (.latest p.pointer) p.proof = some body

variable {published : List PreparedPublication}

/-- The records of a request are hashed. -/
theorem encodings_subset_hashed {pointer : Signed LatestPointer}
    {proof : List (Signed VersionRecord)} {body : List UInt8} (hbody : body ∈ cluster.bodies)
    (hencode : encodeRequestWithProof pkg.key (.latest pointer) proof = some body) :
    encodings {r | r ∈ proof} ⊆ hashed cluster.bodies := by
  rintro bs ⟨r, hr, hbs⟩
  exact ⟨body, hbody, _, deserialize_serialize hencode,
    List.mem_cons_of_mem _ (List.mem_filterMap.mpr ⟨r, hr, hbs⟩)⟩

/-- Every record was sent: the newest release came with all of them. -/
theorem Catalogue.recordBytes_mem (h : pkg.Catalogue published) {p : PreparedPublication}
    (hp : p ∈ published) : recordBytes p ∈ hashed cluster.bodies := by
  cases published with
  | nil => exact absurd hp List.not_mem_nil
  | cons newest older =>
    obtain ⟨body, hbody, hencode⟩ := h.sent newest List.mem_cons_self
    refine encodings_subset_hashed hbody hencode ⟨p.record, ?_, (h.record p hp).1⟩
    rw [h.proof newest rfl]
    exact List.mem_map_of_mem hp

/-- Keys tell the records of releases apart. -/
theorem Catalogue.injOn_encodings (h : pkg.Catalogue published) :
    Set.InjOn cluster.crypto.sha256 (encodings {r | ∃ e ∈ releases published, r ∈ e.2}) := by
  refine cluster.injOn_sha256.mono ?_
  rintro bs ⟨r, ⟨e, he, hr⟩, hbs⟩
  obtain ⟨p, hp, rfl⟩ := List.mem_map.mp (List.mem_reverse.mp he)
  obtain ⟨body, hbody, hencode⟩ := h.sent p hp
  exact encodings_subset_hashed hbody hencode ⟨r, hr, hbs⟩

/-- The history of the newest release. -/
theorem Catalogue.valid {p : PreparedPublication} {older : List PreparedPublication}
    (h : pkg.Catalogue (p :: older)) :
    ValidChain cluster.crypto p.pointer pkg.owner (Registry.records (p :: older)) :=
  h.proof p rfl ▸ h.line.valid _ (mem_releases List.mem_cons_self)

theorem Catalogue.pointer (h : pkg.Catalogue published) {p : PreparedPublication}
    (hp : p ∈ published) :
    p.pointer.body.domain = pkg.domain ∧ p.pointer.body.package = pkg.package :=
  h.line.pointer _ (mem_releases hp)

/-- It is signed by the owner. -/
theorem Catalogue.isLatest (h : pkg.Catalogue published) {p : PreparedPublication}
    (hp : p ∈ published) :
    IsLatest cluster.crypto pkg.owner pkg.domain pkg.package p.pointer :=
  ⟨(h.pointer hp).1, (h.pointer hp).2, (h.line.valid _ (mem_releases hp)).pointer_valid⟩

variable (pkg) in
/-- **What a node stores of a package**: near the package's key it shows one of
certain releases, and near their keys it holds the blobs and the records of what
was published. -/
structure Stocked (T : Set (Option Release)) (published : List PreparedPublication) (c : Contact)
    (values : Values) : Prop where
  /-- It shows one of the releases. -/
  slot : pkg.Showing T (cluster.Near pkg.key) c values
  /-- It holds the blobs. -/
  blob : ∀ p ∈ published, cluster.HeldNear (.blob p.blob) c values
  /-- It holds the records. -/
  record : ∀ p ∈ published, cluster.HeldNear (.blob (recordBytes p)) c values

theorem Stocked.mono {T T' : Set (Option Release)} {c : Contact} {values : Values}
    (h : pkg.Stocked T published c values) (hT : T ⊆ T') : pkg.Stocked T' published c values :=
  ⟨fun hc => (h.slot hc).imp fun _ hx => ⟨hT hx.1, hx.2⟩, h.blob, h.record⟩

/-- The newest release. -/
def newest (published : List PreparedPublication) : Option Release := published.head?.map release

variable (pkg) in
/-- What a node stores when everything is as it was published. -/
def Serves (published : List PreparedPublication) : Contact → Values → Prop :=
  pkg.Stocked {newest published} published

/-- **No proper request ends what is stored of a package.** -/
theorem stable_stocked {releases : List Release}
    (hline : Line cluster.crypto pkg.owner pkg.domain pkg.package releases)
    (hinj : Set.InjOn cluster.crypto.sha256 (encodings {r | ∃ e ∈ releases, r ∈ e.2}))
    {T : Set (Option Release)} (hT : Upward releases T)
    (hblob : ∀ p ∈ published, Plain p.blob) (hrecord : ∀ p ∈ published, Plain (recordBytes p)) :
    cluster.Stable (pkg.proper releases) (pkg.Stocked T published) := by
  intro c hc values hstored hstocked body hbody
  have hheld : ∀ bytes, Plain bytes → cluster.HeldNear (.blob bytes) c values →
      cluster.HeldNear (.blob bytes) c (handle cluster.crypto cluster.dns values body).2 :=
    fun bytes hplain hheld => stable_blob (pkg.proper_subset releases) hplain _ _ c hc values
      hstored hheld body hbody
  exact ⟨stable_showing hline hinj hT _ c hc values hstored hstocked.slot body hbody,
    fun p hp => hheld _ (hblob p hp) (hstocked.blob p hp),
    fun p hp => hheld _ (hrecord p hp) (hstocked.record p hp)⟩

/-- The newest release gives way to nothing that was published. -/
theorem Catalogue.upward_newest (h : pkg.Catalogue published) :
    Upward (releases published) {newest published} := by
  cases published with
  | nil => exact ⟨fun e he => (by cases he), fun _ e he => absurd he List.not_mem_nil,
      fun e he => absurd he List.not_mem_nil⟩
  | cons p older =>
    refine ⟨fun e he => ?_, fun hnone => (by cases hnone), fun e he e' he' habove => ?_⟩
    · cases he
      exact mem_releases List.mem_cons_self
    · cases he'
      -- nothing is above the last of a line
      have hpair : (releases (p :: older)).Pairwise Release.Above := by
        have htrans : IsTrans Release Release.Above := ⟨fun _ _ _ => Release.Above.trans⟩
        exact List.isChain_iff_pairwise.mp h.line.above
      rw [releases_cons] at hpair he
      rcases List.mem_append.mp he with he | he
      · have hbelow := (List.pairwise_append.mp hpair).2.2 e he (release p)
          (List.mem_singleton_self _)
        exact absurd hbelow.1 habove.1.asymm
      · rw [List.mem_singleton.mp he]
        rfl

/-- **What was published stays.** -/
theorem Catalogue.stable_serves (h : pkg.Catalogue published) :
    cluster.Stable (pkg.proper (releases published)) (pkg.Serves published) :=
  stable_stocked h.line h.injOn_encodings h.upward_newest (fun p hp => (h.blob p hp).1)
    fun p hp => (h.record p hp).2

/-! ## Reading

Every read is of a key around which the network is balanced, so it reaches the
nodes near the key, and these hold what was published. None of the steps that
follow looks at anything else. -/

section Reading

variable {allowed : Set (List UInt8)} {N M : Contact → Values → Prop} {rpc : Rpc A (Net A)}
  {world : World A (Net A)}

/-- **A node near the key replies with the newest pointer**, if there is one, and
with none otherwise. -/
theorem reply_eq_latest_iff {c : Contact} {context : Context A}
    (hserves : pkg.Serves published c context.values) (hc : c ∈ cluster.Near pkg.key)
    {pointer : Signed LatestPointer} :
    FindValue.reply context pkg.key = .value (.latest pointer)
      ↔ published.head?.map PreparedPublication.pointer = some pointer := by
  obtain ⟨x, rfl, hshows⟩ := hserves.slot hc
  cases published with
  | nil =>
    refine iff_of_false (fun hreply => ?_) (Option.some_ne_none _).symm
    unfold FindValue.reply at hreply
    split at hreply
    · next value hvalue =>
      cases hreply
      exact hshows pointer hvalue
    · cases hreply
  | cons p older =>
    rw [reply_of_values hshows]
    simp [release]

variable (pkg) in
/-- The owner's key is found. -/
theorem getDnsVk (h : cluster.Ready pkg.keys allowed N M rpc world) :
    ∃ world', rpc.getDnsVk pkg.domain world = (some pkg.owner, world')
      ∧ cluster.Ready pkg.keys allowed N M rpc world' := by
  obtain ⟨hdns, hready⟩ := h.getDnsVk pkg.domain
  exact ⟨_, Prod.ext (hdns.trans pkg.dns) rfl, hready⟩

/-- **The latest pointer found is the newest published.** All nodes near the
key show it, so every pointer that is heard is this one; somebody is near the
key, so one is heard. Where nothing was published no node shows a pointer, and
none is found. -/
theorem getLatest (hcat : pkg.Catalogue published)
    (hN : ∀ c values, N c values → pkg.Serves published c values)
    (h : cluster.Ready pkg.keys allowed N M rpc world) :
    ∃ world', rpc.getLatest cluster.crypto pkg.domain pkg.package world
        = (published.head?.map PreparedPublication.pointer, world')
      ∧ cluster.Ready pkg.keys allowed N M rpc world' := by
  obtain ⟨world₁, hdns, hready⟩ := getDnsVk pkg h
  obtain ⟨hend, replies, hhears, hreplies⟩ := hready.lookupValues pkg.key_mem_keys
    (isLatestFor cluster.crypto pkg.owner pkg.domain pkg.package) false
  obtain ⟨hsel, -⟩ := hready.targets pkg.key_mem_keys
  have hlatest : rpc.HearsLatest cluster.crypto pkg.domain pkg.package world replies := by
    intro owner howner
    rw [hdns] at howner ⊢
    cases howner
    exact hhears
  -- the valid pointers replied are the newest one
  have hvalid : ∀ pointer,
      rpc.ValidReply cluster.crypto pkg.domain pkg.package world replies pointer
        ↔ published.head?.map PreparedPublication.pointer = some pointer := by
    intro pointer
    unfold Rpc.ValidReply Rpc.latestTargets
    rw [hdns]
    constructor
    · rintro ⟨owner, -, -, c, hc, hreply⟩
      obtain ⟨context, -, hcontext, heq⟩ := hreplies c (hsel.subset c hc)
      exact (reply_eq_latest_iff (hN c _ hcontext) ((mem_near_iff hsel).mpr hc)).mp
        (heq.symm.trans hreply)
    · intro hhead
      obtain ⟨p, hp, rfl⟩ := Option.map_eq_some_iff.mp hhead
      obtain ⟨c, hc, hnear⟩ := hready.exists_near pkg.key_mem_keys
      obtain ⟨context, -, hcontext, heq⟩ := hreplies c (hsel.subset c hc)
      exact ⟨pkg.owner, rfl, hcat.isLatest (List.mem_of_mem_head? hp), c, hc,
        heq.trans ((reply_eq_latest_iff (hN c _ hcontext) hnear).mpr hhead)⟩
  have hfound : (rpc.getLatest cluster.crypto pkg.domain pkg.package world).1
      = published.head?.map PreparedPublication.pointer := by
    cases hfound : (rpc.getLatest cluster.crypto pkg.domain pkg.package world).1 with
    | none =>
      have hnone := (getLatest_eq_none_iff hlatest).mp hfound
      cases hhead : published.head?.map PreparedPublication.pointer with
      | none => rfl
      | some pointer => exact absurd ((hvalid pointer).mpr hhead) (hnone pointer)
    | some pointer => exact ((hvalid pointer).mp (of_getLatest_eq_some hlatest hfound).1).symm
  refine ⟨_, Prod.ext hfound rfl, ?_⟩
  unfold Rpc.getLatest
  rw [hdns]
  exact hend

/-- **Every record is fetched.** -/
theorem fetchRecord (hcat : pkg.Catalogue published)
    (hN : ∀ c values, N c values → pkg.Serves published c values)
    {p : PreparedPublication} (hp : p ∈ published)
    (h : cluster.Ready pkg.keys allowed N M rpc world) :
    ∃ world', rpc.fetchRecord cluster.crypto world (hashBytes cluster.crypto (recordBytes p))
      = (some (recordBytes p), world') ∧ cluster.Ready pkg.keys allowed N M rpc world' := by
  obtain ⟨hready, source, hfound⟩ := h.lookupValue
    (pkg.keyForValue_mem_keys (hcat.recordBytes_mem hp)) fun c values hcontext =>
      (hN c values hcontext).record p hp
  refine ⟨_, ?_, hready⟩
  unfold Rpc.fetchRecord
  exact Prod.ext (congrArg (Option.map Prod.snd) hfound) rfl

/-- **Every blob is found.** -/
theorem lookupBlob (hcat : pkg.Catalogue published)
    (hN : ∀ c values, N c values → pkg.Serves published c values)
    {p : PreparedPublication} (hp : p ∈ published)
    (h : cluster.Ready pkg.keys allowed N M rpc world) :
    ∃ source world', rpc.lookupValue cluster.crypto p.record.body.blobHash world
      = (some (source, p.blob), world') ∧ cluster.Ready pkg.keys allowed N M rpc world' := by
  obtain ⟨-, hhash, hsent⟩ := hcat.blob p hp
  rw [hhash]
  obtain ⟨hready, source, hfound⟩ := h.lookupValue (pkg.keyForValue_mem_keys hsent)
    fun c values hcontext => (hN c values hcontext).blob p hp
  exact ⟨source, _, Prod.ext hfound rfl, hready⟩

/-- **The newest history is walked.** -/
theorem walk_newest {p : PreparedPublication} {older : List PreparedPublication}
    (hcat : pkg.Catalogue (p :: older))
    (hN : ∀ c values, N c values → pkg.Serves (p :: older) c values)
    (h : cluster.Ready pkg.keys allowed N M rpc world) :
    ∃ world', walkChain cluster.crypto p.pointer pkg.owner pkg.domain pkg.package
        (rpc.fetchRecord cluster.crypto) world
      = (.ok (Registry.records (p :: older)), world')
      ∧ cluster.Ready pkg.keys allowed N M rpc world' := by
  obtain ⟨hdomain, hpackage⟩ := hcat.pointer List.mem_cons_self
  have hmem : ∀ r ∈ Registry.records (p :: older), ∃ e ∈ releases (p :: older), r ∈ e.2 := by
    intro r hr
    rw [← hcat.proof p rfl] at hr
    exact ⟨release p, mem_releases List.mem_cons_self, hr⟩
  rw [← hdomain, ← hpackage]
  refine hcat.valid.walkChain (hcat.injOn_encodings.mono (encodings_mono hmem)) (fun r hr => ?_)
    (fun r hr => ?_) h
  · obtain ⟨e, he, hre⟩ := hmem r hr
    exact hcat.line.ne_end e he r hre
  · obtain ⟨q, hq, rfl⟩ := List.mem_map.mp hr
    exact ⟨_, (hcat.record q hq).1, fun world' h' => fetchRecord hcat hN hq h'⟩

/-- The history there is to load. -/
def history : List PreparedPublication → Except ChainError (List (Signed VersionRecord))
  | [] => .error .noLatestPointer
  | published => .ok (Registry.records published)

/-- **What loads is the history of what was published.** -/
theorem loadChain (hcat : pkg.Catalogue published)
    (hN : ∀ c values, N c values → pkg.Serves published c values)
    (h : cluster.Ready pkg.keys allowed N M rpc world) :
    ∃ world', rpc.loadChain cluster.crypto pkg.domain pkg.package world
        = (history published, world') ∧ cluster.Ready pkg.keys allowed N M rpc world' := by
  obtain ⟨world₁, hdns, hready⟩ := getDnsVk pkg h
  obtain ⟨world₂, hlatest, hready⟩ := getLatest hcat hN hready
  unfold Rpc.loadChain
  rw [hdns]
  dsimp only
  rw [hlatest]
  cases published with
  | nil => exact ⟨world₂, rfl, hready⟩
  | cons p older => exact walk_newest hcat hN hready

/-- The publisher loads it too. -/
theorem existingHistory (hcat : pkg.Catalogue published)
    (hN : ∀ c values, N c values → pkg.Serves published c values)
    (h : cluster.Ready pkg.keys allowed N M rpc world) :
    ∃ world', rpc.existingHistory cluster.crypto pkg.domain pkg.package world
        = (.ok (Registry.records published), world')
      ∧ cluster.Ready pkg.keys allowed N M rpc world' := by
  obtain ⟨world₁, hlatest, hready⟩ := getLatest hcat hN h
  unfold Rpc.existingHistory
  rw [hlatest]
  cases published with
  | nil => exact ⟨world₁, rfl, hready⟩
  | cons p older =>
    obtain ⟨hdomain, hpackage⟩ := hcat.pointer List.mem_cons_self
    obtain ⟨world₂, hdns, hready⟩ := getDnsVk pkg hready
    obtain ⟨world₃, hwalk, hend⟩ := walk_newest hcat hN hready
    have hload : rpc.loadChainFromPointer cluster.crypto p.pointer world₁
        = (.ok (Registry.records (p :: older)), world₃) := by
      unfold Rpc.loadChainFromPointer
      rw [hdomain, hpackage, hdns]
      exact hwalk
    dsimp only [List.head?_cons, Option.map_some]
    rw [hload]
    exact ⟨world₃, rfl, hend⟩

/-- **Installing is what the registry does.** The history that loads is that of
what was published, the record chosen is that of one of the publications, and
its blob is found. An error is the registry's: there is no history, or it does
not have the version. -/
theorem installPackage (hcat : pkg.Catalogue published)
    (hN : ∀ c values, N c values → pkg.Serves published c values)
    (requestedVersion : Option Version) (h : cluster.Ready pkg.keys allowed N M rpc world) :
    ∃ world', rpc.installPackage cluster.crypto pkg.domain pkg.package requestedVersion world
        = (Registry.install cluster.crypto requestedVersion published, world')
      ∧ cluster.Ready pkg.keys allowed N M rpc world' := by
  obtain ⟨world₁, hload, hready⟩ := loadChain hcat hN h
  unfold Rpc.installPackage
  rw [hload]
  cases published with
  | nil =>
    refine ⟨world₁, ?_, hready⟩
    cases requestedVersion <;> rfl
  | cons p older =>
    cases requestedVersion with
    | none =>
      obtain ⟨source, world₂, hfound, hend⟩ := lookupBlob hcat hN List.mem_cons_self hready
      have hchoose : chooseRecord none (Registry.records (p :: older)) = .ok p.record := rfl
      refine ⟨world₂, ?_, hend⟩
      dsimp only [history]
      rw [hchoose]
      dsimp only
      rw [hfound]
      dsimp only [Registry.install]
      rw [(hcat.blob p List.mem_cons_self).2.1]
    | some version =>
      have hfind : (Registry.records (p :: older)).find? (fun r => r.body.version == version)
          = ((p :: older).find? (fun q => q.record.body.version == version)).map
            PreparedPublication.record := List.find?_map ..
      dsimp only [history, chooseRecord, Registry.install]
      rw [hfind]
      cases hq : (p :: older).find? (fun q => q.record.body.version == version) with
      | none => exact ⟨world₁, rfl, hready⟩
      | some q =>
        have hmem := List.mem_of_find?_eq_some hq
        obtain ⟨source, world₂, hfound, hend⟩ := lookupBlob hcat hN hmem hready
        refine ⟨world₂, ?_, hend⟩
        dsimp only [Option.map_some]
        rw [hfound]
        dsimp only
        rw [(hcat.blob q hmem).2.1]

/-- **So is listing.** -/
theorem showPackage (hcat : pkg.Catalogue published)
    (hN : ∀ c values, N c values → pkg.Serves published c values)
    (h : cluster.Ready pkg.keys allowed N M rpc world) :
    ∃ world', rpc.showPackage cluster.crypto pkg.domain pkg.package world
        = (Registry.list published, world') ∧ cluster.Ready pkg.keys allowed N M rpc world' := by
  obtain ⟨world₁, hload, hready⟩ := loadChain hcat hN h
  refine ⟨world₁, ?_, hready⟩
  unfold Rpc.showPackage
  rw [hload]
  cases published <;> rfl

end Reading

end Package

end Cluster

end Kademlia
