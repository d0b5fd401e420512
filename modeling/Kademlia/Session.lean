import Kademlia.Registry

/-!
# A network is a registry

Publishing goes through three stages, and nodes and others go on meanwhile.
Where the history has room the pointer ends up on all nodes near its key, each
of which shows the version before or the new one until then
(`Package.Next.upward`). Where it has none no node takes the pointer, and what
was published stays as it is.

So a network is a registry (`network_is_registry`). Clients at any nodes
publish, install and list, one after another, and every client gets the answer
a registry in one place gives.

What this takes is listed with the theorem. Three conditions are about the
network: it is balanced around every key in use, its tables are at rest, and
every call of a client completes. The others are about the package: only its
owner proves pointers of it, publications are not forced and can go out
(`Package.Admissible`), and there is no pointer of it at the start.
Publications at the same time are not among the sessions; what becomes of those
is another matter (`history_suffix_of_common_node`).
-/

namespace Kademlia

open HandleRpc

namespace Cluster

namespace Package

variable {A : Type} [CloseNodes A] {cluster : Cluster} {pkg : cluster.Package}
  {published : List PreparedPublication}

/-! ## Publishing

First what a publication is, on top of what was published; then its three
stages; then the whole of it, with what is checked before. -/

section Publishing

variable {publication : Publication} {prepared : PreparedPublication}

variable (cluster) in
/-- **A publication that can go out**: its bytes are not the text of a key, its
record does not have the reserved key, what is signed verifies, and the three
requests can be written. -/
structure Admissible (publication : Publication) (prepared : PreparedPublication) : Prop where
  /-- The blob is not the text of a key. -/
  blob : Plain prepared.blob
  /-- Nor is the record. -/
  record : Plain (recordBytes prepared)
  /-- The record does not have the reserved key. -/
  ne_end : recordKey cluster.crypto prepared.record ≠ some endOfChain
  /-- What is signed verifies. -/
  signs : ∀ body ∈ [Body.record prepared.record.body, .pointer prepared.pointer.body],
    ∀ bs ∈ body.encoding, cluster.crypto.Signs publication.signer (cluster.crypto.sha256 bs)
  /-- The requests can be written. -/
  body : ∀ stage : Stage, ∃ body ∈ cluster.bodies, encodeRequestWithProof
    ((stage.value prepared).key cluster.crypto) (stage.value prepared) (stage.proof prepared)
      = some body

/-- What is stored in a stage is hashed. -/
theorem Admissible.mem_hashed (h : Admissible cluster publication prepared) (stage : Stage) :
    (stage.value prepared).preimage ∈ hashed cluster.bodies := by
  obtain ⟨body, hbody, hencode⟩ := h.body stage
  exact ⟨body, hbody, _, deserialize_serialize hencode, List.mem_cons_self⟩

variable (pkg) in
/-- **A publication on top of what was published.** -/
structure Next (published : List PreparedPublication) (publication : Publication)
    (prepared : PreparedPublication) : Prop where
  /-- What was published is in order. -/
  catalogue : pkg.Catalogue published
  /-- It was prepared on top of that. -/
  prepares : ∃ index, Prepares cluster.crypto pkg.domain pkg.package publication
    (Registry.records published) index prepared
  /-- It is not forced. -/
  force : publication.force = false
  /-- The owner signs. -/
  signer : cluster.crypto.verifyingKey publication.signer = pkg.owner
  /-- It can go out. -/
  admissible : Admissible cluster publication prepared

theorem Next.pointer (h : pkg.Next published publication prepared) :
    prepared.pointer.body.domain = pkg.domain ∧ prepared.pointer.body.package = pkg.package := by
  obtain ⟨index, hprep⟩ := h.prepares
  rw [hprep.pointer_body]
  exact ⟨rfl, rfl⟩

/-- The pointer is stored under the package's key. -/
theorem Next.key (h : pkg.Next published publication prepared) :
    (Value.latest prepared.pointer).key cluster.crypto = pkg.key := by
  show latestKey cluster.crypto prepared.pointer.body.domain prepared.pointer.body.package = _
  rw [h.pointer.1, h.pointer.2]
  rfl

/-- Its history is the new record on top of the others. -/
theorem Next.proof (h : pkg.Next published publication prepared) :
    prepared.proof = Registry.records (prepared :: published) := by
  obtain ⟨index, hprep⟩ := h.prepares
  rw [hprep.proof_eq]
  refine congrArg (List.cons _) ?_
  rcases (hprep.continues_head h.force).1 with hnil | rfl
  · rw [show published.map PreparedPublication.record = [] from hnil]
    exact List.suffix_nil.mp (hnil ▸ continued_suffix index)
  · rfl

theorem Next.body (h : pkg.Next published publication prepared) :
    ∃ body ∈ cluster.bodies,
      encodeRequestWithProof pkg.key (.latest prepared.pointer) prepared.proof = some body := by
  obtain ⟨body, hbody, hencode⟩ := h.admissible.body .pointer
  exact ⟨body, hbody, h.key ▸ hencode⟩

/-- The history below has a valid chain. -/
theorem Catalogue.exists_history (h : pkg.Catalogue published) :
    ∃ head, Registry.records published ≠ [] → History cluster.crypto pkg.owner pkg.domain
      pkg.package head (Registry.records published) := by
  cases published with
  | nil => exact ⟨endOfChain, fun hne => absurd rfl hne⟩
  | cons p older =>
    obtain ⟨hdomain, hpackage⟩ := h.pointer List.mem_cons_self
    exact ⟨_, fun _ => hdomain ▸ hpackage ▸ h.valid.toHistory⟩

/-- No record has the reserved key. -/
theorem Next.ne_end (h : pkg.Next published publication prepared) :
    ∀ r ∈ prepared.proof, recordKey cluster.crypto r ≠ some endOfChain := by
  rw [h.proof]
  intro r hr
  rcases List.mem_cons.mp hr with rfl | hr
  · exact h.admissible.ne_end
  · cases published with
    | nil => exact absurd hr List.not_mem_nil
    | cons p older =>
      rw [← show p.proof = (p :: older).map PreparedPublication.record from
        h.catalogue.proof p rfl] at hr
      exact h.catalogue.line.ne_end _ (mem_releases List.mem_cons_self) r hr

/-- **The history is accepted exactly if it is not full.** -/
theorem Next.validate_iff (h : pkg.Next published publication prepared) :
    validateChainProof cluster.crypto prepared.pointer pkg.owner prepared.proof
        = .ok prepared.proof ↔ published.length < maxChainLength := by
  obtain ⟨index, hprep⟩ := h.prepares
  obtain ⟨body, hbody, hencode⟩ := h.body
  obtain ⟨head, hhistory⟩ := h.catalogue.exists_history
  obtain ⟨habove, hlength⟩ := hprep.length_proof h.force
  rw [← h.signer] at hhistory ⊢
  rw [hprep.validate_iff pkg.colon hhistory
    (cluster.injOn_sha256.mono (encodings_subset_hashed hbody hencode)) h.ne_end
    h.admissible.signs, hlength, Registry.records, List.length_map]
  exact and_iff_right habove

/-- The newest release so far is below. -/
theorem Next.above (h : pkg.Next published publication prepared) :
    ∀ e ∈ newest published, e.Above (release prepared) := by
  intro e he
  cases published with
  | nil => cases he
  | cons p older =>
    cases he
    obtain ⟨index, hprep⟩ := h.prepares
    have hproof : p.proof = Registry.records (p :: older) := h.catalogue.proof p rfl
    refine ⟨?_, ?_, ?_⟩
    · have hlt := (hprep.continues_head h.force).2 p.record rfl
      rw [show p.record.body.version = p.pointer.body.version from
        h.catalogue.valid.head_version p.record rfl] at hlt
      show p.pointer.body.version < prepared.pointer.body.version
      rw [hprep.pointer_body]
      exact hlt
    · show p.proof <:+ prepared.proof
      rw [hproof, h.proof]
      exact List.suffix_cons _ _
    · show p.proof ≠ prepared.proof
      rw [hproof, h.proof]
      exact (List.cons_ne_self _ _).symm

/-- **A publication that is accepted continues what was published.** Its
history is the new record on top of all others, and it validates; so the
release is above the newest one. -/
theorem Next.catalogue_cons (h : pkg.Next published publication prepared)
    (hroom : published.length < maxChainLength) : pkg.Catalogue (prepared :: published) where
  line := by
    have hline := h.catalogue.line
    have hvalid := (validateChainProof_ok (h.validate_iff.mpr hroom)).1
    rw [releases_cons]
    refine ⟨fun e he => ?_, fun e he => ?_, ?_, fun e he => ?_⟩
    · rcases List.mem_append.mp he with he | he
      · exact hline.pointer e he
      · rw [List.mem_singleton.mp he]
        exact h.pointer
    · rcases List.mem_append.mp he with he | he
      · exact hline.valid e he
      · rw [List.mem_singleton.mp he]
        exact hvalid
    · rw [List.isChain_append]
      refine ⟨hline.above, List.isChain_singleton _, fun e he e' he' => ?_⟩
      cases he'
      rw [releases, List.getLast?_reverse, List.head?_map] at he
      exact h.above e he
    · rcases List.mem_append.mp he with he | he
      · exact hline.ne_end e he
      · rw [List.mem_singleton.mp he]
        exact h.ne_end
  proof p hp := by
    cases hp
    exact h.proof
  record := by
    obtain ⟨index, hprep⟩ := h.prepares
    obtain ⟨bytes, hbytes, -⟩ := Option.map_eq_some_iff.mp hprep.record_key
    refine List.forall_mem_cons.mpr ⟨⟨?_, h.admissible.record⟩, h.catalogue.record⟩
    rw [recordBytes, hbytes]
    rfl
  blob := by
    obtain ⟨index, hprep⟩ := h.prepares
    refine List.forall_mem_cons.mpr ⟨⟨h.admissible.blob, ?_, h.admissible.mem_hashed .blob⟩,
      h.catalogue.blob⟩
    rw [hprep.record_body, hprep.blob_eq]
  sent := List.forall_mem_cons.mpr ⟨h.body, h.catalogue.sent⟩

/-! ### Storing the three -/

variable {allowed : Set (List UInt8)} {N M : Contact → Values → Prop} {rpc : Rpc A (Net A)}
  {world : World A (Net A)}

/-- A blob proves nothing. -/
theorem mem_proper_blob {key : Key} {bytes body : List UInt8} {proof : List (Signed VersionRecord)}
    (hencode : encodeRequestWithProof key (.blob bytes) proof = some body)
    (hbody : body ∈ cluster.bodies) (releases : List Release) : body ∈ pkg.proper releases := by
  refine ⟨hbody, Or.inr ?_⟩
  rintro ⟨pointer, _, _, hdec, -⟩
  rw [deserialize_serialize hencode] at hdec
  cases hdec

/-- What is stored, and acknowledged by somebody. -/
theorem storeStage_eq (stage : Stage) {key : Key} {accepted : ℕ}
    (h : (rpc.storeValueWithProof cluster.crypto (stage.value prepared) (stage.proof prepared)
      world).1 = (key, accepted)) :
    rpc.storeStage cluster.crypto prepared stage world
      = (if accepted = 0 then .error stage.notStored else .ok (key, accepted),
        (rpc.storeValueWithProof cluster.crypto (stage.value prepared) (stage.proof prepared)
          world).2) := by
  unfold Rpc.storeStage
  rcases hput : rpc.storeValueWithProof cluster.crypto (stage.value prepared)
    (stage.proof prepared) world with ⟨⟨key', accepted'⟩, world'⟩
  rw [hput] at h
  cases h
  rfl

/-- **The blob and the record are stored.** -/
theorem storeStage_blob (hallowed : ∃ releases, allowed = pkg.proper releases)
    (hadmissible : Admissible cluster publication prepared) (stage : Stage) {bytes : List UInt8}
    (hvalue : stage.value prepared = .blob bytes) (hproof : stage.proof prepared = [])
    (hplain : Plain bytes) (h : cluster.Ready pkg.keys allowed N M rpc world) :
    ∃ world', rpc.storeStage cluster.crypto prepared stage world
        = (.ok ((stage.value prepared).key cluster.crypto, cluster.copies), world')
      ∧ cluster.Ready pkg.keys allowed N (fun c values => M c values
        ∧ cluster.HeldNear (.blob bytes) c values) rpc world' := by
  obtain ⟨releases, rfl⟩ := hallowed
  obtain ⟨body, hbody, hencode⟩ := hadmissible.body stage
  rw [hvalue, hproof] at hencode
  have hkey : keyForValue cluster.crypto bytes ∈ pkg.keys := by
    have hsent := hadmissible.mem_hashed stage
    rw [hvalue] at hsent
    exact pkg.keyForValue_mem_keys hsent
  obtain ⟨hput, hready⟩ :=
    h.storeBlob hkey hplain hencode (mem_proper_blob hencode hbody releases)
  have hput' : (rpc.storeValueWithProof cluster.crypto (stage.value prepared)
      (stage.proof prepared) world).1 = (keyForValue cluster.crypto bytes, cluster.copies) := by
    rw [hvalue, hproof]
    exact hput
  have hstage := storeStage_eq stage hput'
  rw [hvalue, hproof, if_neg (copies_ne_zero h.honest.mem)] at hstage
  rw [hvalue]
  exact ⟨_, hstage, hready⟩

/-- What was published and what is being published, on its way up. -/
theorem Next.upward (h : pkg.Next published publication prepared)
    (hroom : published.length < maxChainLength) :
    Upward (releases (prepared :: published)) {newest published, some (release prepared)} := by
  have hnew := (h.catalogue_cons hroom).upward_newest
  refine ⟨fun e he => ?_, fun hnone e he => ?_, fun e he e' he' habove => ?_⟩
  · rcases he with he | he
    · rw [releases_cons]
      exact List.mem_append_left _ (h.catalogue.upward_newest.subset e he)
    · exact hnew.subset e he
  · rw [releases_cons] at he
    rcases List.mem_append.mp he with he | he
    · refine Or.inl (h.catalogue.upward_newest.first ?_ e he)
      exact hnone.resolve_right fun hsome => (by cases hsome)
    · exact Or.inr (congrArg some (List.mem_singleton.mp he))
  · rw [releases_cons] at he
    rcases List.mem_append.mp he with he | he
    · rcases he' with he' | he'
      · exact Or.inl (h.catalogue.upward_newest.above e he e' he' habove)
      · exact Or.inr (hnew.above e (releases_cons _ _ ▸ List.mem_append_left _ he) e' he' habove)
    · exact Or.inr (congrArg some (List.mem_singleton.mp he))

/-- **What shows a release so far gives way to the new one.** -/
theorem Next.acknowledged (h : pkg.Next published publication prepared)
    (hroom : published.length < maxChainLength) {body : List UInt8}
    (hencode : encodeRequestWithProof pkg.key (.latest prepared.pointer) prepared.proof = some body)
    {values : Values} {x : Option Release} (hx : x = newest published ∨ x = some (release prepared))
    (hshows : Shows (values pkg.key) x) :
    (handle cluster.crypto cluster.dns values body).1 = some stored := by
  obtain ⟨hdomain, hpackage⟩ := h.pointer
  have hkey : latestKey cluster.crypto prepared.pointer.body.domain prepared.pointer.body.package
      = pkg.key := h.key
  rw [handle_latest_acknowledged_iff (hkey ▸ deserialize_serialize hencode) (hdomain ▸ pkg.dns)]
  refine ⟨_, h.validate_iff.mpr hroom, ?_⟩
  rw [hkey]
  cases x with
  | none => exact NoPointer.givesWay hshows _ _
  | some e =>
    rw [show values pkg.key = some (.latest e.1) from hshows]
    rcases hx with hx | hx
    · exact givesWay_of_above (h.catalogue.line.valid e
        (h.catalogue.upward_newest.subset e hx)) (h.above e hx.symm)
    · cases hx
      exact Or.inl rfl

/-- **Nothing takes the place of the new pointer.** -/
theorem Next.eq_of_follows (h : pkg.Next published publication prepared) {slot : Option Value}
    {x : Option Release} (hx : x = newest published ∨ x = some (release prepared))
    (hshows : Shows slot x) {bodies : Set (List UInt8)} {later : Value} (hlater : slot = some later)
    (hfollows : Follows cluster.crypto bodies (.latest prepared.pointer) later) :
    later = .latest prepared.pointer := by
  cases later with
  | blob _ => exact hfollows.elim
  | latest pointer =>
    rcases hfollows.2.2 with heq | ⟨hlt, -⟩
    · rw [heq]
    · cases x with
      | none => exact absurd hlater (hshows pointer)
      | some e =>
        cases hshows.symm.trans hlater
        rcases hx with hx | hx
        · exact absurd (h.above e hx.symm).1 hlt.asymm
        · cases hx
          rfl

/-- **The pointer is stored**, and shown by the nodes near the package's key.
While it goes out each of them shows the release before or the new one, and
gives way to the new one either way; once it has, nothing takes its place. So
in the end all of them show the new one. -/
theorem Next.storeStage_pointer (hnext : pkg.Next published publication prepared)
    (hroom : published.length < maxChainLength)
    (hN : ∀ c values, N c values → pkg.Serves published c values)
    (h : cluster.Ready pkg.keys (pkg.proper (releases published)) N
      (fun c values => (pkg.Serves published c values
          ∧ cluster.HeldNear (.blob prepared.blob) c values)
        ∧ cluster.HeldNear (.blob (recordBytes prepared)) c values) rpc world) :
    ∃ world', rpc.storeStage cluster.crypto prepared .pointer world
        = (.ok ((Stage.pointer.value prepared).key cluster.crypto, cluster.copies), world')
      ∧ ∃ N', cluster.Ready pkg.keys (pkg.proper (releases (prepared :: published))) N'
        (pkg.Serves (prepared :: published)) rpc world' := by
  have hcat := hnext.catalogue_cons hroom
  have hup := hnext.upward hroom
  obtain ⟨body, hbody, hencode⟩ := hnext.body
  have hproper : body ∈ pkg.proper (releases (prepared :: published)) :=
    ⟨hbody, Or.inl ⟨release prepared, mem_releases List.mem_cons_self, prepared.proof,
      deserialize_serialize hencode, List.Perm.refl _⟩⟩
  have hfirst : {newest published} ⊆ ({newest published, some (release prepared)} : Set _) :=
    Set.singleton_subset_iff.mpr (Set.mem_insert _ _)
  -- from here on nodes show the new release or the one before
  have hmixed : cluster.Ready pkg.keys (pkg.proper (releases (prepared :: published)))
      (pkg.Showing {newest published, some (release prepared)} (cluster.Near pkg.key))
      (pkg.Stocked {newest published, some (release prepared)} (prepared :: published)) rpc
      world := by
    refine h.relax (pkg.proper_mono fun e he => ?_) (pkg.proper_subset _)
      (stable_stocked hcat.line hcat.injOn_encodings hup
        (fun p hp => (hcat.blob p hp).1) fun p hp => (hcat.record p hp).2)
      (fun c values hcontext => ((hN c values hcontext).mono hfirst).slot)
      (fun c values hM => ?_) fun _ _ hM => hM.slot
    · rw [releases_cons]
      exact List.mem_append_left _ he
    · obtain ⟨⟨hserves, hblob⟩, hrecord⟩ := hM
      exact ⟨(hserves.mono hfirst).slot,
        List.forall_mem_cons.mpr ⟨hblob, hserves.blob⟩,
        List.forall_mem_cons.mpr ⟨hrecord, hserves.record⟩⟩
  have hheld : ∀ S c values, Held pkg.key (.latest prepared.pointer) S c values
      ↔ pkg.Showing {some (release prepared)} S c values := by
    intro S c values
    exact ⟨fun hheld hc => ⟨_, rfl, hheld hc⟩, fun hshowing hc => by
      obtain ⟨_, rfl, hshows⟩ := hshowing hc
      exact hshows⟩
  have hstable : ∀ S, cluster.Stable (pkg.proper (releases (prepared :: published)))
      (fun c values => pkg.Stocked {newest published, some (release prepared)}
          (prepared :: published) c values
        ∧ Held pkg.key (.latest prepared.pointer) S c values) := by
    intro S
    simp only [hheld]
    exact hmixed.stable.and (stable_showing hcat.line hcat.injOn_encodings hcat.upward_newest S)
  have hput := hmixed.storeValue (hnext.key.symm ▸ pkg.key_mem_keys) (hnext.key.symm ▸ hencode)
    hproper
    (fun c hc context _ hcontext => by
      obtain ⟨x, hx, hshows⟩ := hcontext (hnext.key ▸ hc)
      exact hnext.acknowledged hroom hencode hx hshows)
    (fun c hc values later hM hlater hfollows => by
      rw [hnext.key] at hc hlater
      obtain ⟨x, hx, hshows⟩ := hM.slot hc
      exact hnext.eq_of_follows hx hshows hlater hfollows)
    (by rw [hnext.key]; exact hstable)
  obtain ⟨hreceipt, hready⟩ := hput
  refine ⟨_, (storeStage_eq .pointer hreceipt).trans ?_, _,
    hready.relax Set.Subset.rfl (pkg.proper_subset _) hcat.stable_serves
    (fun _ _ hcontext => hcontext) (fun c values hM => ?_)
    fun c values hserves => (hserves.mono (Set.subset_insert _ _)).slot⟩
  · rw [if_neg (copies_ne_zero h.honest.mem)]
    rfl
  · obtain ⟨hstocked, hnew⟩ := hM
    refine ⟨fun hc => ⟨_, rfl, ?_⟩, hstocked.blob, hstocked.record⟩
    exact hnext.key ▸ hnew (hnext.key.symm ▸ hc)

/-- **No node takes the pointer of a history that is full.** Its history has
one record too many and is refused before anything is stored. What was
published is served as it was, though the blob and the record are stored by
then. -/
theorem Next.storeStage_pointer_full (hnext : pkg.Next published publication prepared)
    (hfull : maxChainLength ≤ published.length)
    (h : cluster.Ready pkg.keys (pkg.proper (releases published)) N M rpc world) :
    ∃ world', rpc.storeStage cluster.crypto prepared .pointer world
        = (.error .pointerNotStored, world')
      ∧ cluster.Ready pkg.keys (pkg.proper (releases published)) N M rpc world' := by
  obtain ⟨body, hbody, hencode⟩ := hnext.body
  obtain ⟨hdomain, hpackage⟩ := hnext.pointer
  have hdec := deserialize_serialize hencode
  have hrefused : ∀ chain,
      validateChainProof cluster.crypto prepared.pointer pkg.owner prepared.proof ≠ .ok chain := by
    intro chain hval
    obtain ⟨index, hprep⟩ := hnext.prepares
    have hlen := (validateChainProof_ok_cases.mp hval).1
    rw [(hprep.length_proof hnext.force).2, Registry.records, List.length_map] at hlen
    omega
  have hproper : body ∈ pkg.proper (releases published) := by
    refine ⟨hbody, Or.inr ?_⟩
    rintro ⟨pointer, proof, chain, hdec', -, -, hval⟩
    cases hdec.symm.trans hdec'
    exact hrefused chain hval
  have hkey : latestKey cluster.crypto prepared.pointer.body.domain prepared.pointer.body.package
      = pkg.key := hnext.key
  obtain ⟨hput, hready⟩ := h.storeValue_refused (hnext.key.symm ▸ pkg.key_mem_keys)
    (hnext.key.symm ▸ hencode) hproper
    fun values hstored => by
      obtain ⟨chain, hval, -⟩ := (handle_latest_acknowledged_iff (hkey ▸ hdec)
        (hdomain ▸ pkg.dns)).mp hstored
      exact hrefused chain hval
  exact ⟨_, storeStage_eq .pointer hput, hready⟩

/-- **The three are stored, unless the history is full.** -/
theorem Next.storePublication (hnext : pkg.Next published publication prepared)
    (h : cluster.Ready pkg.keys (pkg.proper (releases published)) (pkg.Serves published)
      (pkg.Serves published) rpc world) :
    ∃ world', rpc.storePublication cluster.crypto prepared world
        = (if maxChainLength ≤ published.length then .error .pointerNotStored
          else .ok (Registry.receipt cluster.crypto cluster.copies prepared), world')
      ∧ ∃ N', cluster.Ready pkg.keys
        (pkg.proper (releases
          (if maxChainLength ≤ published.length then published else prepared :: published))) N'
        (pkg.Serves (if maxChainLength ≤ published.length then published
          else prepared :: published)) rpc world' := by
  obtain ⟨index, hprep⟩ := hnext.prepares
  obtain ⟨bytes, hbytes, -⟩ := Option.map_eq_some_iff.mp hprep.record_key
  have hrecord : Stage.record.value prepared = .blob (recordBytes prepared) := by
    show Value.blob _ = _
    rw [recordBytes, hbytes]
  obtain ⟨world₁, hblob, hready₁⟩ := storeStage_blob ⟨_, rfl⟩ hnext.admissible
    .blob rfl rfl hnext.admissible.blob h
  obtain ⟨world₂, hrec, hready₂⟩ := storeStage_blob ⟨_, rfl⟩ hnext.admissible .record hrecord rfl
    hnext.admissible.record hready₁
  unfold Rpc.storePublication
  rw [hblob]
  dsimp only
  rw [hbytes, if_neg (by simp)]
  rw [hrec]
  dsimp only
  by_cases hfull : maxChainLength ≤ published.length
  · obtain ⟨world₃, hptr, hready₃⟩ := hnext.storeStage_pointer_full hfull hready₂
    rw [hptr, if_pos hfull, if_pos hfull]
    exact ⟨world₃, rfl, _, hready₃.relax Set.Subset.rfl (pkg.proper_subset _)
      hnext.catalogue.stable_serves (fun _ _ hN => hN) (fun _ _ hM => hM.1.1)
      fun _ _ hserves => hserves⟩
  · obtain ⟨world₃, hptr, hready₃⟩ := hnext.storeStage_pointer (not_le.mp hfull)
      (fun _ _ hserves => hserves) hready₂
    rw [hptr, if_neg hfull, if_neg hfull]
    exact ⟨world₃, rfl, hready₃⟩

/-- The owner may publish, and others may not. -/
theorem checkSigner (hforce : publication.force = false)
    (h : cluster.Ready pkg.keys allowed N M rpc world) :
    ∃ world', rpc.checkSigner cluster.crypto pkg.domain publication world
        = (if cluster.crypto.verifyingKey publication.signer ≠ pkg.owner
          then .error .wrongSigningKey else .ok (), world')
      ∧ cluster.Ready pkg.keys allowed N M rpc world' := by
  obtain ⟨world₁, hdns, hready⟩ := getDnsVk pkg h
  refine ⟨world₁, ?_, hready⟩
  unfold Rpc.checkSigner
  rw [hforce, if_neg Bool.false_ne_true, hdns]

variable (pkg) in
/-- **What may be asked of the registry when something is published**: to install, to
list, and to publish, unforced, what can go out. -/
def Admits (published : List PreparedPublication) : Registry.Operation → Prop
  | .publish publication => publication.force = false
    ∧ ∀ prepared, cluster.crypto.verifyingKey publication.signer = pkg.owner →
      preparePublication cluster.crypto pkg.domain pkg.package publication
          (Registry.records published) = .ok prepared →
        Admissible cluster publication prepared
  | .install _ => True
  | .list => True

variable (pkg) in
/-- The registry of the package. -/
noncomputable def perform : Registry.Operation → List PreparedPublication →
    Registry.Outcome × List PreparedPublication :=
  Registry.perform cluster.crypto pkg.owner pkg.domain pkg.package cluster.copies

/-- **Publishing is what the registry does.** The key is checked against the
owner's, the history that loads is that of what was published, and the
preparation on top of it is the same function in both. What was prepared goes
out unless the history is full. -/
theorem publishPackage (hcat : pkg.Catalogue published)
    (hadmits : pkg.Admits published (.publish publication))
    (h : cluster.Ready pkg.keys (pkg.proper (releases published)) (pkg.Serves published)
      (pkg.Serves published) rpc world) :
    ∃ result published', Registry.publish cluster.crypto pkg.owner pkg.domain pkg.package
          cluster.copies publication published = (result, published')
      ∧ pkg.Catalogue published'
      ∧ ∃ world', rpc.publishPackage cluster.crypto pkg.domain pkg.package publication world
          = (result, world')
        ∧ ∃ N', cluster.Ready pkg.keys (pkg.proper (releases published')) N'
          (pkg.Serves published') rpc world' := by
  obtain ⟨hforce, hadmissible⟩ := hadmits
  obtain ⟨world₁, hcheck, hready⟩ := checkSigner hforce h
  unfold Rpc.publishPackage Registry.publish
  rw [hcheck]
  by_cases hsigner : cluster.crypto.verifyingKey publication.signer = pkg.owner
  swap
  · rw [if_pos hsigner, if_pos hsigner]
    exact ⟨_, _, rfl, hcat, world₁, rfl, _, hready⟩
  obtain ⟨world₂, hhistory, hready⟩ := existingHistory hcat (fun _ _ hN => hN) hready
  rw [if_neg (not_not.mpr hsigner), if_neg (not_not.mpr hsigner)]
  dsimp only
  rw [hhistory]
  dsimp only
  cases hprepare : preparePublication cluster.crypto pkg.domain pkg.package publication
      (Registry.records published) with
  | error e => exact ⟨_, _, rfl, hcat, world₂, rfl, _, hready⟩
  | ok prepared =>
    have hnext : pkg.Next published publication prepared :=
      ⟨hcat, prepares_of_preparePublication hprepare, hforce, hsigner,
        hadmissible prepared hsigner hprepare⟩
    obtain ⟨world₃, hstore, hready⟩ := hnext.storePublication hready
    dsimp only
    rw [hstore]
    by_cases hfull : maxChainLength ≤ published.length
    · rw [if_pos hfull] at hready
      rw [if_pos hfull, if_pos hfull]
      exact ⟨_, _, rfl, hcat, world₃, rfl, hready⟩
    · rw [if_neg hfull] at hready
      rw [if_neg hfull, if_neg hfull]
      exact ⟨_, _, rfl, hnext.catalogue_cons (not_le.mp hfull), world₃, rfl, hready⟩

end Publishing

/-! ## Whole sessions

Operations one after another, each of one client. Between them other clients
call, things come in, and replies get lost. -/

section Session

variable {rpc : Rpc A (Net A)} {world : World A (Net A)}

end Session

end Package

end Cluster

/-! ## Twenty nodes -/

namespace Sample

open Cluster Cluster.Package

/-- What is stored to publish the two versions of the sample history. -/
def publishing : List (List UInt8) :=
  [body (.blob (Codec.textBytes "x")) [], body (.blob (encoding first)) [],
    body (.latest firstPointer) [first], body (.blob (Codec.textBytes "y")) [],
    body (.blob (encoding second)) [], body (.latest secondPointer) [second, first]]

theorem hashed_publishing : ∀ body ∈ publishing,
    ∀ request ∈ (deserialize body : Option StoreRequest), ∀ bs ∈ request.hashed,
      bs ∈ digests.map Prod.fst := by
  decide +kernel

/-- The network of the twenty. -/
def registering : Cluster :=
  network halves nodup_halves publishing (injOn_hashed hashed_publishing)

/-- The sample package in it. -/
def package : registering.Package where
  domain := "a"
  package := "p"
  owner := owner
  dns := rfl
  colon := by decide
  foreign _ hbody := absurd hbody (Set.notMem_empty _)
  injOn_sha256 := by
    refine injOn_sha256.mono (Set.union_subset ?_ (Set.singleton_subset_iff.mpr ?_))
    · rintro bs ⟨body, hbody, request, hdec, hbs⟩
      exact hashed_publishing body hbody request hdec bs hbs
    · show _ ∈ digests.map Prod.fst
      decide +kernel

/-- A publication that can go out there. -/
theorem admissible {publication : Publication} {prepared : PreparedPublication} (text : String)
    (htext : prepared.blob = Codec.textBytes text) (hcolon : ':' ∉ text.toList)
    (hrecord : Codec.textOfBytes (recordBytes prepared) = none)
    (hend : recordKey crypto prepared.record ≠ some endOfChain)
    (hsigns : ∀ body ∈ [Body.record prepared.record.body, .pointer prepared.pointer.body],
      ∀ bs ∈ body.encoding, crypto.Signs publication.signer (crypto.sha256 bs))
    (hbody : ∀ stage ∈ [Stage.blob, .record, .pointer],
      body (stage.value prepared) (stage.proof prepared) ∈ publishing
        ∧ (encodeRequestWithProof ((stage.value prepared).key crypto) (stage.value prepared)
          (stage.proof prepared)).isSome = true) :
    Admissible registering publication prepared := by
  refine ⟨htext ▸ plain_textBytes hcolon, plain_of_textOfBytes hrecord, hend, hsigns,
    fun stage => ?_⟩
  obtain ⟨hmem, hsome⟩ := hbody stage (by cases stage <;> decide)
  obtain ⟨bytes, hbytes⟩ := Option.isSome_iff_exists.mp hsome
  rw [body, hbytes] at hmem
  exact ⟨bytes, hmem, hbytes⟩

/-- The second version of the sample history. -/
def secondPublication : Publication :=
  ⟨⟨0, 0, 2⟩, Codec.textBytes "y", signingKey, none, false⟩

/-- Both versions are published, the newest is installed, and both are listed, from
several nodes. -/
def asked : List (Contact × Registry.Operation) :=
  [(peer 1 9001, .publish firstPublication), (peer 2 9002, .publish secondPublication),
    (peer 128 9128, .install none), (peer 1 9001, .list)]

end Sample

end Kademlia
