import Kademlia.ValueLookup

/-!
# Installing a package

To install a package is to find its latest pointer, load the history below
it, choose a record and fetch the blob the record names. All of it comes from
peers that may answer anything, at any time and in any order; only the key of
the domain comes from elsewhere.

What is installed is nevertheless the owner's (`Authentic`): bytes whose hash
is in a record of a complete history that the owner signed, the only record of
its version there. And the pointer decides everything: two installations that
start from the same pointer give the same bytes, since a pointer has one
history and a key one blob.
-/

namespace Kademlia

/-- Why an installation failed. -/
inductive InstallError where
  /-- There is no history, or it is refused. -/
  | invalidHistory (error : ChainError)
  /-- The history does not have the version. -/
  | versionNotFound (version : Version)
  /-- Nobody has the blob. -/
  | blobUnavailable (key : Key)
deriving DecidableEq

/-- What was installed. -/
structure InstalledPackage where
  /-- Its version. -/
  version : Version
  /-- The key of its blob. -/
  blobKey : Key
  /-- The blob. -/
  blob : List UInt8
deriving DecidableEq

/-- Choose the record of a version, or the newest one. -/
def chooseRecord (requestedVersion : Option Version) (history : List (Signed VersionRecord)) :
    Except InstallError (Signed VersionRecord) :=
  match requestedVersion with
  | some version =>
    match history.find? (fun record => record.body.version == version) with
    | none => .error (.versionNotFound version)
    | some record => .ok record
  | none =>
    match history.head? with
    | none => .error (.invalidHistory .emptyChain)
    | some record => .ok record

namespace Rpc

variable {τ ν : Type} [CloseNodes τ] (rpc : Rpc τ ν) (crypto : Crypto)

/-- Install a version of a package, or its newest. -/
def installPackage (domain package : String) (requestedVersion : Option Version)
    (world : World τ ν) : Except InstallError InstalledPackage × World τ ν :=
  match rpc.loadChain crypto domain package world with
  | (.error e, world) => (.error (.invalidHistory e), world)
  | (.ok history, world) =>
    match chooseRecord requestedVersion history with
    | .error e => (.error e, world)
    | .ok record =>
      match rpc.lookupValue crypto record.body.blobHash world with
      | (none, world) => (.error (.blobUnavailable record.body.blobHash), world)
      | (some (_, blob), world) =>
        (.ok ⟨record.body.version, record.body.blobHash, blob⟩, world)

/-- The latest pointer an installation starts from. -/
def latestFor (domain package : String) (world : World τ ν) : Option (Signed LatestPointer) :=
  (rpc.getLatest crypto domain package (rpc.getDnsVk domain world).2).1

end Rpc

/-- **An installation that is the owner's.** -/
structure Authentic (crypto : Crypto) (owner : VerifyingKey) (domain package : String)
    (requestedVersion : Option Version) (pointer : Signed LatestPointer)
    (chain : List (Signed VersionRecord)) (installed : InstalledPackage) : Prop where
  /-- The bytes hash to their key. -/
  hash : keyForValue crypto installed.blob = installed.blobKey
  /-- The pointer is of the domain. -/
  domain_eq : pointer.body.domain = domain
  /-- The pointer is of the package. -/
  package_eq : pointer.body.package = package
  /-- The history is complete, and the owner's. -/
  valid : ValidChain crypto pointer owner chain
  /-- The only record of the version names the bytes. -/
  record : ∃ record ∈ chain, record.body.version = installed.version
    ∧ record.body.blobHash = installed.blobKey
    ∧ ∀ other ∈ chain, other.body.version = installed.version → other = record
  /-- The version is the one asked for, or the pointer's. -/
  version_eq : installed.version = requestedVersion.getD pointer.body.version

section Results

variable {crypto : Crypto} {τ ν : Type} [CloseNodes τ] {rpc : Rpc τ ν}

/-- The record chosen is of the history, and of the version asked for or the
newest. -/
theorem chooseRecord_ok {requestedVersion : Option Version}
    {history : List (Signed VersionRecord)} {record : Signed VersionRecord}
    (h : chooseRecord requestedVersion history = .ok record) :
    record ∈ history ∧ (∀ version, requestedVersion = some version → record.body.version = version)
      ∧ (requestedVersion = none → history.head? = some record) := by
  unfold chooseRecord at h
  split at h
  · split at h
    · cases h
    · next hfind =>
      cases h
      refine ⟨List.mem_of_find?_eq_some hfind, fun v hv => ?_, fun hnone => (nomatch hnone)⟩
      cases hv
      simpa using List.find?_some hfind
  · split at h
    · cases h
    · next hhead =>
      cases h
      exact ⟨List.mem_of_mem_head? hhead, fun _ hv => (nomatch hv), fun _ => hhead⟩

/-- **What an installation that succeeds has done**: it loaded a history, chose
a record of it, and fetched bytes that hash to what the record names. The hash
was checked when the bytes came in. -/
theorem installPackage_ok {domain package : String} {requestedVersion : Option Version}
    {world : World τ ν} {installed : InstalledPackage}
    (h : (rpc.installPackage crypto domain package requestedVersion world).1 = .ok installed) :
    ∃ chain record, (rpc.loadChain crypto domain package world).1 = .ok chain
      ∧ chooseRecord requestedVersion chain = .ok record
      ∧ installed.version = record.body.version ∧ installed.blobKey = record.body.blobHash
      ∧ keyForValue crypto installed.blob = installed.blobKey := by
  unfold Rpc.installPackage at h
  split at h
  · cases h
  · next chain world₁ hload =>
    split at h
    · cases h
    · next record hchoose =>
      split at h
      · cases h
      · next source blob world₂ hlookup =>
        cases h
        refine ⟨chain, record, by rw [hload], hchoose, rfl, rfl, ?_⟩
        exact keyForValue_of_lookupValue (congrArg Prod.fst hlookup)

/-- A version occurs once in a history. -/
theorem History.eq_of_version_eq {owner : VerifyingKey} {domain package : String} {head : Key}
    {chain : List (Signed VersionRecord)} (h : History crypto owner domain package head chain)
    {r s : Signed VersionRecord} (hr : r ∈ chain) (hs : s ∈ chain)
    (hv : r.body.version = s.body.version) : r = s := by
  have hnodup : (chain.map (fun r => r.body.version)).Nodup :=
    List.pairwise_map.mpr (h.decreasing.imp (fun hlt => hlt.ne'))
  exact List.inj_on_of_nodup_map hnodup hr hs hv

/-- **An installation that succeeds is the owner's.** The history was walked
from a pointer that the owner signed, record by record, so it is complete and
all of it is signed; and as versions decrease along it, the record chosen is
the only one of its version. -/
theorem authentic_of_installPackage {owner : VerifyingKey} {domain package : String}
    {requestedVersion : Option Version} {world : World τ ν} {installed : InstalledPackage}
    (hdns : (rpc.getDnsVk domain world).1 = some owner)
    (h : (rpc.installPackage crypto domain package requestedVersion world).1 = .ok installed) :
    ∃ pointer chain, rpc.latestFor crypto domain package world = some pointer
      ∧ (rpc.loadChain crypto domain package world).1 = .ok chain
      ∧ Authentic crypto owner domain package requestedVersion pointer chain installed := by
  obtain ⟨chain, record, hload, hchoose, hversion, hkey, hhash⟩ := installPackage_ok h
  obtain ⟨vk, pointer, hvk, hlatest, hdom, hpkg, hvalid⟩ := loadChain_ok hload
  obtain rfl : owner = vk := Option.some.inj (hdns.symm.trans hvk)
  obtain ⟨hmem, hsome, hnone⟩ := chooseRecord_ok hchoose
  refine ⟨pointer, chain, hlatest, hload, hhash, hdom, hpkg, hvalid, ?_, ?_⟩
  · refine ⟨record, hmem, hversion.symm, hkey.symm, fun other hother hv => ?_⟩
    exact hvalid.toHistory.eq_of_version_eq hother hmem (hv.trans hversion)
  · rw [hversion]
    cases requestedVersion with
    | none => exact hvalid.head_version record (hnone rfl)
    | some version => exact hsome version rfl

/-- **An installation is the owner's, and its pointer decides it.** Whatever
peers reply and in whatever order, what is installed is in a complete history
signed by the owner, from the pointer that was found, under the version asked
for or the pointer's own; and two installations from one pointer give the same
bytes, through whatever networks they were made.

The first is what the walk and the fetch check. For the second, each record
names the next by its hash and the last names the blob by its: hashes that do
not collide on these leave one history below a pointer, one record of a version
in it, and one blob under its key. What peers can do is withhold, or answer
with an older pointer; neither gives other bytes for the same pointer. -/
theorem installPackage_integrity (crypto : Crypto) (owner : VerifyingKey)
    (domain package : String) (requestedVersion : Option Version) :
    (∀ {τ ν : Type} [CloseNodes τ] (rpc : Rpc τ ν) (world : World τ ν)
        (installed : InstalledPackage), (∀ w, (rpc.getDnsVk domain w).1 = some owner) →
        (rpc.installPackage crypto domain package requestedVersion world).1 = .ok installed →
        ∃ pointer chain, rpc.latestFor crypto domain package world = some pointer
          ∧ (rpc.loadChain crypto domain package world).1 = .ok chain
          ∧ Authentic crypto owner domain package requestedVersion pointer chain installed)
      ∧ ∀ {τ ν τ' ν' : Type} [CloseNodes τ] [CloseNodes τ'] (rpc : Rpc τ ν) (rpc' : Rpc τ' ν')
        (world : World τ ν) (world' : World τ' ν') (installed installed' : InstalledPackage)
        (chain chain' : List (Signed VersionRecord)),
        (∀ w, (rpc.getDnsVk domain w).1 = some owner) →
        (∀ w, (rpc'.getDnsVk domain w).1 = some owner) →
        (rpc.installPackage crypto domain package requestedVersion world).1 = .ok installed →
        (rpc'.installPackage crypto domain package requestedVersion world').1 = .ok installed' →
        (rpc.loadChain crypto domain package world).1 = .ok chain →
        (rpc'.loadChain crypto domain package world').1 = .ok chain' →
        rpc.latestFor crypto domain package world
          = rpc'.latestFor crypto domain package world' →
        Set.InjOn crypto.sha256
          (encodings (recordsOf chain chain') ∪ {installed.blob, installed'.blob}) →
        installed = installed' := by
  constructor
  · intro τ ν _ rpc world installed hdns h
    exact authentic_of_installPackage (hdns world) h
  · intro τ ν τ' ν' _ _ rpc rpc' world world' installed installed' chain chain' _ _ h h' hload
      hload' hsame hinj
    obtain ⟨c, record, hc, hchoose, hversion, hkey, hhash⟩ := installPackage_ok h
    obtain ⟨c', record', hc', hchoose', hversion', hkey', hhash'⟩ := installPackage_ok h'
    obtain rfl : chain = c := Except.ok.inj (hload.symm.trans hc)
    obtain rfl : chain' = c' := Except.ok.inj (hload'.symm.trans hc')
    obtain ⟨_, pointer, -, hlatest, -, -, hvalid⟩ := loadChain_ok hload
    obtain ⟨_, pointer', -, hlatest', -, -, hvalid'⟩ := loadChain_ok hload'
    -- one pointer, so one history, so one record
    obtain rfl : pointer = pointer' :=
      Option.some.inj (hlatest.symm.trans (hsame.trans hlatest'))
    obtain rfl : chain = chain' :=
      hvalid.toHistory.unique (hinj.mono Set.subset_union_left) hvalid'.toHistory
    obtain rfl : record = record' := Except.ok.inj (hchoose.symm.trans hchoose')
    have hblob : installed.blob = installed'.blob :=
      hinj (Or.inr (Or.inl rfl)) (Or.inr (Or.inr rfl))
        (hhash.trans (hkey.trans (hkey'.symm.trans hhash'.symm)))
    obtain ⟨version, blobKey, blob⟩ := installed
    obtain ⟨version', blobKey', blob'⟩ := installed'
    obtain rfl : version = version' := hversion.trans hversion'.symm
    obtain rfl : blobKey = blobKey' := hkey.trans hkey'.symm
    obtain rfl : blob = blob' := hblob
    rfl

end Results

namespace Sample

/-- What a node holds after the second version was published, as far as the
first version needs it. -/
def held : List Value :=
  .latest secondPointer :: .blob (Codec.textBytes "x") :: recordBlobs

/-- The same with the blob of the second version, in another order. -/
def heldElsewhere : List Value :=
  .blob (Codec.textBytes "y") :: recordBlobs
    ++ [.blob (Codec.textBytes "x"), .latest secondPointer]

/-- The first version. -/
def installed : InstalledPackage :=
  ⟨⟨0, 0, 1⟩, first.body.blobHash, Codec.textBytes "x"⟩

end Sample

/-- The first version, installed from two networks. -/
theorem installPackage_integrity_sample :
    ∃ installed installed' pointer chain,
      ((Sample.client Sample.held).installPackage Sample.crypto "a" "p" (some ⟨0, 0, 1⟩)
        ⟨⟨[]⟩, ()⟩).1 = .ok installed
      ∧ ((Sample.client Sample.heldElsewhere).installPackage Sample.crypto "a" "p"
        (some ⟨0, 0, 1⟩) ⟨⟨[]⟩, ()⟩).1 = .ok installed'
      ∧ Authentic Sample.crypto Sample.owner "a" "p" (some ⟨0, 0, 1⟩) pointer chain installed
      ∧ installed = installed' := by
  obtain ⟨hone, htwo⟩ := installPackage_integrity Sample.crypto Sample.owner "a" "p"
    (some ⟨0, 0, 1⟩)
  have h : ((Sample.client Sample.held).installPackage Sample.crypto "a" "p" (some ⟨0, 0, 1⟩)
      ⟨⟨[]⟩, ()⟩).1 = .ok Sample.installed := by decide +kernel
  have h' : ((Sample.client Sample.heldElsewhere).installPackage Sample.crypto "a" "p"
      (some ⟨0, 0, 1⟩) ⟨⟨[]⟩, ()⟩).1 = .ok Sample.installed := by decide +kernel
  obtain ⟨pointer, chain, -, -, hauth⟩ := hone _ _ _ (fun _ => rfl) h
  refine ⟨_, _, pointer, chain, h, h', hauth, htwo _ _ _ _ _ _ [Sample.second, Sample.first]
    [Sample.second, Sample.first] (fun _ => rfl) (fun _ => rfl) h h' ?_ ?_ ?_ ?_⟩
  · decide +kernel
  · decide +kernel
  · decide +kernel
  · refine Sample.injOn_sha256.mono (Set.union_subset Sample.encodings_subset ?_)
    rintro bs (rfl | rfl)
    · decide +kernel
    · decide +kernel

/-! ## Listing versions

Listing loads the same history and marks its first record as the newest, which
is the one that an installation without a version chooses. That it has the
version of the pointer, and is alone in that, is part of what is shown. -/

/-- A version as it is listed. -/
structure PublishedVersion where
  /-- The version. -/
  version : Version
  /-- The key of its blob. -/
  blobKey : Key
  /-- Whether it is the newest. -/
  isLatest : Bool
deriving DecidableEq

/-- The versions of a history, as they are listed. -/
def listed (history : List (Signed VersionRecord)) : List PublishedVersion :=
  history.zipIdx.map (fun p => ⟨p.1.body.version, p.1.body.blobHash, p.2 == 0⟩)

/-- List the versions of a package, newest first. -/
def Rpc.showPackage {τ ν : Type} [CloseNodes τ] (rpc : Rpc τ ν) (crypto : Crypto)
    (domain package : String) (world : World τ ν) :
    Except ChainError (List PublishedVersion) × World τ ν :=
  match rpc.loadChain crypto domain package world with
  | (.error e, world) => (.error e, world)
  | (.ok history, world) => (.ok (listed history), world)

/-- The newest is listed first, and no other as the newest. -/
theorem listed_cons (record : Signed VersionRecord) (history : List (Signed VersionRecord)) :
    listed (record :: history) = ⟨record.body.version, record.body.blobHash, true⟩
      :: history.map (fun r => ⟨r.body.version, r.body.blobHash, false⟩) := by
  unfold listed
  rw [List.zipIdx_cons, List.map_cons]
  refine congrArg (List.cons _) (List.ext_getElem (by simp) fun i hi hi' => ?_)
  simp

/-- Whatever is listed is a record of the history. -/
theorem map_version_listed (history : List (Signed VersionRecord)) :
    (listed history).map (fun v => (v.version, v.blobKey))
      = history.map (fun r => (r.body.version, r.body.blobHash)) := by
  cases history with
  | nil => rfl
  | cons record history =>
    rw [listed_cons]
    simp

/-- **A list of versions in order**: they decrease, and the first one and no other
is marked as the newest. -/
structure InOrder (newest : Version) (versions : List PublishedVersion) : Prop where
  /-- Versions decrease. -/
  decreasing : versions.Pairwise (fun v w => w.version < v.version)
  /-- The first is the newest. -/
  head : ∃ v rest, versions = v :: rest ∧ v.version = newest
  /-- It is marked, and no other. -/
  isLatest : ∀ v ∈ versions, v.isLatest = true ↔ v.version = newest

/-- The versions of a valid history are listed in order: they decrease along
it, and its first record has the version of its pointer. -/
theorem ValidChain.inOrder {crypto : Crypto} {pointer : Signed LatestPointer}
    {owner : VerifyingKey} {chain : List (Signed VersionRecord)}
    (h : ValidChain crypto pointer owner chain) : InOrder pointer.body.version (listed chain) := by
  obtain ⟨record, rest, rfl⟩ := List.exists_cons_of_ne_nil h.ne_nil
  have hhead : record.body.version = pointer.body.version := h.head_version record rfl
  have hdecreasing := h.decreasing
  rw [listed_cons]
  refine ⟨?_, ⟨_, _, rfl, hhead⟩, fun v hv => ?_⟩
  · rw [List.pairwise_cons] at hdecreasing ⊢
    refine ⟨fun v hv => ?_, List.pairwise_map.mpr hdecreasing.2⟩
    obtain ⟨r, hr, rfl⟩ := List.mem_map.mp hv
    exact hdecreasing.1 r hr
  · rcases List.mem_cons.mp hv with rfl | hv
    · exact iff_of_true rfl hhead
    · obtain ⟨r, hr, rfl⟩ := List.mem_map.mp hv
      have hlt := (List.pairwise_cons.mp hdecreasing).1 r hr
      exact iff_of_false Bool.false_ne_true (hhead ▸ hlt.ne)

/-- **What is listed is what can be installed.** Whatever peers reply: the
versions listed are those of a complete history that the owner signed, in
order, the first one marked as the newest. And whatever an installation from
the same pointer gives, here or through another network, is one of them under
the key listed, the marked one if no version was asked for. A pointer has one
history as long as hashes do not collide on its records, so the two walks,
though they may have asked different peers, have seen the same records. -/
theorem showPackage_agrees_with_install {τ ν τ' ν' : Type} [CloseNodes τ] [CloseNodes τ']
    (rpc : Rpc τ ν) (rpc' : Rpc τ' ν') (crypto : Crypto) (domain package : String)
    (world : World τ ν) (world' : World τ' ν') (versions : List PublishedVersion)
    (hshow : (rpc.showPackage crypto domain package world).1 = .ok versions) :
    ∃ owner pointer chain, (rpc.getDnsVk domain world).1 = some owner
      ∧ rpc.latestFor crypto domain package world = some pointer
      ∧ (rpc.loadChain crypto domain package world).1 = .ok chain
      ∧ ValidChain crypto pointer owner chain ∧ versions = listed chain
      ∧ InOrder pointer.body.version versions
      ∧ ∀ requestedVersion installed chain',
        (rpc'.installPackage crypto domain package requestedVersion world').1 = .ok installed →
        (rpc'.loadChain crypto domain package world').1 = .ok chain' →
        rpc'.latestFor crypto domain package world' = some pointer →
        Set.InjOn crypto.sha256 (encodings (recordsOf chain chain')) →
        ∃ v ∈ versions, v.version = installed.version ∧ v.blobKey = installed.blobKey
          ∧ (requestedVersion = none → v.isLatest = true)
          ∧ ∀ w ∈ versions, w.version = installed.version → w.blobKey = installed.blobKey := by
  unfold Rpc.showPackage at hshow
  split at hshow
  · cases hshow
  · next chain world₁ hload =>
    cases hshow
    obtain ⟨owner, pointer, hdns, hlatest, -, -, hvalid⟩ := loadChain_ok (congrArg Prod.fst hload)
    refine ⟨owner, pointer, chain, hdns, hlatest, by rw [hload], hvalid, rfl, hvalid.inOrder, ?_⟩
    intro requestedVersion installed chain' hinstall hload' hsame hinj
    obtain ⟨c, record, hc, hchoose, hversion, hkey, -⟩ := installPackage_ok hinstall
    obtain rfl : chain' = c := Except.ok.inj (hload'.symm.trans hc)
    obtain ⟨_, pointer', -, hlatest', -, -, hvalid'⟩ := loadChain_ok hload'
    -- one pointer, so one history
    obtain rfl : pointer = pointer' := Option.some.inj (hsame.symm.trans hlatest')
    obtain rfl : chain = chain' := hvalid.toHistory.unique hinj hvalid'.toHistory
    obtain ⟨hmem, -, hnone⟩ := chooseRecord_ok hchoose
    have hpair : (record.body.version, record.body.blobHash)
        ∈ (listed chain).map (fun v => (v.version, v.blobKey)) := by
      rw [map_version_listed]
      exact List.mem_map_of_mem hmem
    obtain ⟨v, hv, hveq⟩ := List.mem_map.mp hpair
    obtain ⟨hvv, hvk⟩ := Prod.mk.inj hveq
    refine ⟨v, hv, hvv.trans hversion.symm, hvk.trans hkey.symm, fun hreq => ?_, fun w hw hwv => ?_⟩
    · rw [hvalid.inOrder.isLatest v hv, hvv]
      exact hvalid.head_version record (hnone hreq)
    · -- no version is listed twice
      have hnodup : ((listed chain).map (fun v => v.version)).Nodup :=
        List.pairwise_map.mpr (hvalid.inOrder.decreasing.imp fun hlt => hlt.ne')
      rw [List.inj_on_of_nodup_map hnodup hw hv (hwv.trans (hversion.trans hvv.symm)), hvk, hkey]

/-- Two versions are listed, and the first of them was installed elsewhere. -/
theorem showPackage_agrees_with_install_sample :
    ∃ v ∈ listed [Sample.second, Sample.first], v.version = Sample.installed.version
      ∧ v.blobKey = Sample.installed.blobKey := by
  have hshow : ((Sample.client Sample.held).showPackage Sample.crypto "a" "p" ⟨⟨[]⟩, ()⟩).1
      = .ok (listed [Sample.second, Sample.first]) := by decide +kernel
  have hload : ((Sample.client Sample.heldElsewhere).loadChain Sample.crypto "a" "p"
      ⟨⟨[]⟩, ()⟩).1 = .ok [Sample.second, Sample.first] := by decide +kernel
  obtain ⟨owner, pointer, chain, -, hlatest, hchain, -, -, -, hinstall⟩ :=
    showPackage_agrees_with_install (Sample.client Sample.held)
      (Sample.client Sample.heldElsewhere) Sample.crypto "a" "p" ⟨⟨[]⟩, ()⟩ ⟨⟨[]⟩, ()⟩ _ hshow
  have hpointer : (Sample.client Sample.held).latestFor Sample.crypto "a" "p" ⟨⟨[]⟩, ()⟩
      = some Sample.secondPointer := by decide +kernel
  have hfirst : ((Sample.client Sample.held).loadChain Sample.crypto "a" "p" ⟨⟨[]⟩, ()⟩).1
      = .ok [Sample.second, Sample.first] := by decide +kernel
  obtain rfl := Option.some.inj (hpointer.symm.trans hlatest)
  obtain rfl := Except.ok.inj (hfirst.symm.trans hchain)
  obtain ⟨v, hv, hversion, hkey, -⟩ := hinstall (some ⟨0, 0, 1⟩) Sample.installed _
    (by decide +kernel) hload (by decide +kernel) (Sample.injOn_sha256.mono Sample.encodings_subset)
  exact ⟨v, hv, hversion, hkey⟩

end Kademlia
