import Kademlia.Ledger
import Kademlia.Publishers

/-!
# Publishing a package

A publisher makes sure that its key is the domain's, loads the history there
is, prepares the publication on top of it, and only then stores: the blob, the
record that names the blob, and the pointer that names the record, each on the
nodes nearest to its key. Between the three it wants one acknowledgement.

So what is wrong with a publication is found before anything is sent, and
nothing is offered to a node before what it names was accepted by some node
(`StoredInOrder`). Neither depends on what the network does: a run that is cut
short by failures has sent a beginning of the same sequence.
-/

namespace Kademlia

/-- The errors found by checking. -/
def PublishError.isCheck : PublishError → Bool
  | .noDnsKey | .wrongSigningKey | .invalidExistingHistory _ | .wrongPackageHistory
  | .versionNotNewer | .previousNotFound | .previousNotLatest => true
  | .encodingFailed | .blobNotStored | .recordNotStored | .pointerNotStored => false

namespace Rpc

variable {τ ν : Type} [CloseNodes τ] (rpc : Rpc τ ν) (crypto : Crypto)

/-- Unless forced, the key to sign with has to be the domain's. -/
def checkSigner (domain : String) (publication : Publication) (world : World τ ν) :
    Except PublishError Unit × World τ ν :=
  if publication.force then (.ok (), world)
  else
    match rpc.getDnsVk domain world with
    | (none, world) => (.error .noDnsKey, world)
    | (some owner, world) =>
      (if crypto.verifyingKey publication.signer ≠ owner then .error .wrongSigningKey
        else .ok (), world)

/-- The history published so far. No answer is taken for no history. -/
def existingHistory (domain package : String) (world : World τ ν) :
    Except PublishError (List (Signed VersionRecord)) × World τ ν :=
  match rpc.getLatest crypto domain package world with
  | (none, world) => (.ok [], world)
  | (some pointer, world) =>
    match rpc.loadChainFromPointer crypto pointer world with
    | (.error e, world) => (.error (.invalidExistingHistory e), world)
    | (.ok chain, world) => (.ok chain, world)

/-- Store one of the three, which somebody has to acknowledge. -/
def storeStage (prepared : PreparedPublication) (stage : Stage) (world : World τ ν) :
    Except PublishError (Key × ℕ) × World τ ν :=
  let ((key, accepted), world) :=
    rpc.storeValueWithProof crypto (stage.value prepared) (stage.proof prepared) world
  (if accepted = 0 then .error stage.notStored else .ok (key, accepted), world)

/-- Store what was prepared: the blob, the record, the pointer. -/
def storePublication (prepared : PreparedPublication) (world : World τ ν) :
    Except PublishError PublishReceipt × World τ ν :=
  match rpc.storeStage crypto prepared .blob world with
  | (.error e, world) => (.error e, world)
  | (.ok (blobKey, blobAccepted), world) =>
    -- the record is encoded once the blob is stored
    if (serialize prepared.record).isNone then (.error .encodingFailed, world)
    else
      match rpc.storeStage crypto prepared .record world with
      | (.error e, world) => (.error e, world)
      | (.ok (recordKey, recordAccepted), world) =>
        match rpc.storeStage crypto prepared .pointer world with
        | (.error e, world) => (.error e, world)
        | (.ok (latestKey, latestAccepted), world) =>
          (.ok ⟨blobKey, recordKey, latestKey, blobAccepted, recordAccepted, latestAccepted⟩,
            world)

/-- **Publish a version of a package.** -/
def publishPackage (domain package : String) (publication : Publication) (world : World τ ν) :
    Except PublishError PublishReceipt × World τ ν :=
  match rpc.checkSigner crypto domain publication world with
  | (.error e, world) => (.error e, world)
  | (.ok (), world) =>
    match rpc.existingHistory crypto domain package world with
    | (.error e, world) => (.error e, world)
    | (.ok existing, world) =>
      match preparePublication crypto domain package publication existing with
      | .error e => (.error e, world)
      | .ok prepared => rpc.storePublication crypto prepared world

end Rpc

/-! ## What is checked first

Reading and loading send no stores, so the record of stores that is kept beside
the run is as it was. -/

section Checks

variable {τ ν : Type} [CloseNodes τ] {stores : List Exchange} {w : World τ ν}
  {w' : World τ (ν × List Exchange)}

theorem checkSigner_logged (rpc : Rpc τ ν) (crypto : Crypto) (domain : String)
    (publication : Publication) (hw : Sent stores w w') :
    Agree (Sent stores) (rpc.checkSigner crypto domain publication w)
      (rpc.logged.checkSigner crypto domain publication w') := by
  unfold Rpc.checkSigner
  split
  · exact ⟨rfl, hw⟩
  · obtain ⟨owner, v, v', hdns, hdns', hv⟩ :=
      ((simulates_logged rpc stores).getDnsVk domain hw).exists_eq
    rw [hdns, hdns']
    cases owner with
    | none => exact ⟨rfl, hv⟩
    | some owner => exact ⟨rfl, hv⟩

theorem existingHistory_logged (rpc : Rpc τ ν) (crypto : Crypto) (domain package : String)
    (hw : Sent stores w w') :
    Agree (Sent stores) (rpc.existingHistory crypto domain package w)
      (rpc.logged.existingHistory crypto domain package w') := by
  obtain ⟨pointer, v, v', hlatest, hlatest', hv⟩ :=
    ((simulates_logged rpc stores).getLatest crypto domain package hw).exists_eq
  unfold Rpc.existingHistory
  rw [hlatest, hlatest']
  cases pointer with
  | none => exact ⟨rfl, hv⟩
  | some pointer =>
    obtain ⟨chain, u, u', hload, hload', hu⟩ :=
      ((simulates_logged rpc stores).loadChainFromPointer crypto pointer hv).exists_eq
    dsimp only
    rw [hload, hload']
    cases chain with
    | error e => exact ⟨rfl, hu⟩
    | ok chain => exact ⟨rfl, hu⟩

end Checks

/-! ## What is stored, and when

The three stages in turn. What was sent is told as three lists, of which a
later one is empty unless somebody acknowledged what the one before stores. An
error in between leaves the later lists empty. -/

section Stages

variable {τ ν : Type} [CloseNodes τ] {rpc : Rpc τ ν} {crypto : Crypto} {stores : List Exchange}
  {w : World τ ν} {w' : World τ (ν × List Exchange)} {prepared : PreparedPublication}

/-- Every one of some calls stores one of the three. -/
def Round (rpc : Rpc τ ν) (crypto : Crypto) (prepared : PreparedPublication) (stage : Stage)
    (es : List Exchange) : Prop :=
  Offered rpc ((stage.value prepared).key crypto) (stage.value prepared) (stage.proof prepared) es

/-- **A stage is over without an acknowledgement or with one.** -/
theorem storeStage_logged (rpc : Rpc τ ν) (crypto : Crypto) (prepared : PreparedPublication)
    (stage : Stage) (hw : Sent stores w w') :
    ∃ es result v v', rpc.storeStage crypto prepared stage w = (result, v)
      ∧ rpc.logged.storeStage crypto prepared stage w' = (result, v')
      ∧ Sent (stores ++ es) v v' ∧ Round rpc crypto prepared stage es
      ∧ (result = .error stage.notStored
        ∨ (result = .ok ((stage.value prepared).key crypto, es.countP Exchange.acknowledged)
          ∧ 0 < es.countP Exchange.acknowledged)) := by
  obtain ⟨es, hagree, hround, hresult⟩ :=
    storeValueWithProof_logged rpc crypto (stage.value prepared) (stage.proof prepared) hw
  obtain ⟨⟨key, accepted⟩, v, v', hv, hv', hsent⟩ := hagree.exists_eq
  rw [hv] at hresult
  cases hresult
  unfold Rpc.storeStage
  rw [hv, hv']
  refine ⟨es, _, v, v', rfl, rfl, hsent, hround, ?_⟩
  split
  · exact Or.inl rfl
  · next hsome => exact Or.inr ⟨rfl, Nat.pos_of_ne_zero hsome⟩

/-- **What is stored is stored in order**: the record once the blob was
acknowledged, the pointer once the record was. -/
structure StoredInOrder (rpc : Rpc τ ν) (crypto : Crypto) (prepared : PreparedPublication)
    (blobs records pointers : List Exchange) : Prop where
  /-- The first calls store the blob. -/
  blob_round : Round rpc crypto prepared .blob blobs
  /-- The next calls store the record. -/
  record_round : Round rpc crypto prepared .record records
  /-- The last calls store the pointer. -/
  pointer_round : Round rpc crypto prepared .pointer pointers
  /-- The record is stored after somebody acknowledged the blob. -/
  record_after : records ≠ [] → 0 < blobs.countP Exchange.acknowledged
  /-- The pointer is stored after somebody acknowledged the record. -/
  pointer_after : pointers ≠ [] → 0 < records.countP Exchange.acknowledged

/-- The receipt tells the keys, and how many acknowledged. -/
structure Acknowledges (crypto : Crypto) (prepared : PreparedPublication)
    (blobs records pointers : List Exchange) (receipt : PublishReceipt) : Prop where
  /-- The receipt. -/
  receipt_eq : receipt = ⟨(Stage.blob.value prepared).key crypto,
    (Stage.record.value prepared).key crypto, (Stage.pointer.value prepared).key crypto,
    blobs.countP Exchange.acknowledged, records.countP Exchange.acknowledged,
    pointers.countP Exchange.acknowledged⟩
  /-- The record has an encoding. -/
  encodes : (serialize prepared.record).isSome
  /-- Somebody acknowledged the blob. -/
  blob_pos : 0 < blobs.countP Exchange.acknowledged
  /-- Somebody acknowledged the record. -/
  record_pos : 0 < records.countP Exchange.acknowledged
  /-- Somebody acknowledged the pointer. -/
  pointer_pos : 0 < pointers.countP Exchange.acknowledged

/-- What storing returns: a receipt, or that something was not stored. -/
def Concludes (crypto : Crypto) (prepared : PreparedPublication)
    (blobs records pointers : List Exchange) : Except PublishError PublishReceipt → Prop
  | .error e => e.isCheck = false
  | .ok receipt => Acknowledges crypto prepared blobs records pointers receipt

/-- **Storing a publication.** By cases on how each stage ends. Where one ends
without an acknowledgement the lists of those after it are empty, and the error
is not one of a check. -/
theorem storePublication_logged (rpc : Rpc τ ν) (crypto : Crypto)
    (prepared : PreparedPublication) (hw : Sent stores w w') :
    ∃ blobs records pointers,
      Agree (Sent (stores ++ (blobs ++ records ++ pointers)))
        (rpc.storePublication crypto prepared w) (rpc.logged.storePublication crypto prepared w')
      ∧ StoredInOrder rpc crypto prepared blobs records pointers
      ∧ Concludes crypto prepared blobs records pointers
        (rpc.storePublication crypto prepared w).1 := by
  have hnone : ∀ stage, Round rpc crypto prepared stage [] := fun _ _ he => (nomatch he)
  unfold Rpc.storePublication
  obtain ⟨blobs, result, v, v', hv, hv', hsent, hblobs, hresult⟩ :=
    storeStage_logged rpc crypto prepared .blob hw
  rw [hv, hv']
  rcases hresult with rfl | ⟨rfl, hblob⟩
  · exact ⟨blobs, [], [], ⟨rfl, by simpa using hsent⟩,
      ⟨hblobs, hnone _, hnone _, nofun, nofun⟩, rfl⟩
  dsimp only
  by_cases hser : (serialize prepared.record).isNone
  · rw [if_pos hser, if_pos hser]
    exact ⟨blobs, [], [], ⟨rfl, by simpa using hsent⟩,
      ⟨hblobs, hnone _, hnone _, nofun, nofun⟩, rfl⟩
  rw [if_neg hser, if_neg hser]
  rw [Option.isNone_iff_eq_none, ← ne_eq, ← Option.isSome_iff_ne_none] at hser
  obtain ⟨records, result, u, u', hu, hu', hsent, hrecords, hresult⟩ :=
    storeStage_logged rpc crypto prepared .record hsent
  rw [hu, hu']
  rcases hresult with rfl | ⟨rfl, hrecord⟩
  · exact ⟨blobs, records, [], ⟨rfl, by simpa using hsent⟩,
      ⟨hblobs, hrecords, hnone _, fun _ => hblob, nofun⟩, rfl⟩
  dsimp only
  obtain ⟨pointers, result, t, t', ht, ht', hsent, hpointers, hresult⟩ :=
    storeStage_logged rpc crypto prepared .pointer hsent
  rw [ht, ht']
  have horder : StoredInOrder rpc crypto prepared blobs records pointers :=
    ⟨hblobs, hrecords, hpointers, fun _ => hblob, fun _ => hrecord⟩
  rcases hresult with rfl | ⟨rfl, hpointer⟩
  · exact ⟨blobs, records, pointers, ⟨rfl, by simpa using hsent⟩, horder, rfl⟩
  · exact ⟨blobs, records, pointers, ⟨rfl, by simpa using hsent⟩, horder,
      ⟨rfl, hser, hblob, hrecord, hpointer⟩⟩

/-- **What publishing returns, and what it has sent**: an error and nothing, or
what was prepared, in order. -/
theorem publishPackage_logged (rpc : Rpc τ ν) (crypto : Crypto) (domain package : String)
    (publication : Publication) (hw : Sent [] w w') :
    ∃ sent, Agree (Sent sent) (rpc.publishPackage crypto domain package publication w)
        (rpc.logged.publishPackage crypto domain package publication w')
      ∧ ((sent = [] ∧ ∃ e, (rpc.publishPackage crypto domain package publication w).1 = .error e)
        ∨ ∃ existing prepared blobs records pointers,
          preparePublication crypto domain package publication existing = .ok prepared
          ∧ sent = blobs ++ records ++ pointers
          ∧ StoredInOrder rpc crypto prepared blobs records pointers
          ∧ Concludes crypto prepared blobs records pointers
            (rpc.publishPackage crypto domain package publication w).1) := by
  unfold Rpc.publishPackage
  obtain ⟨checked, v, v', hv, hv', hsent⟩ :=
    (checkSigner_logged rpc crypto domain publication hw).exists_eq
  rw [hv, hv']
  cases checked with
  | error e => exact ⟨[], ⟨rfl, hsent⟩, Or.inl ⟨rfl, e, rfl⟩⟩
  | ok _ =>
    obtain ⟨loaded, u, u', hu, hu', hsent⟩ :=
      (existingHistory_logged rpc crypto domain package hsent).exists_eq
    dsimp only
    rw [hu, hu']
    cases loaded with
    | error e => exact ⟨[], ⟨rfl, hsent⟩, Or.inl ⟨rfl, e, rfl⟩⟩
    | ok existing =>
      dsimp only
      cases hprepare : preparePublication crypto domain package publication existing with
      | error e => exact ⟨[], ⟨rfl, hsent⟩, Or.inl ⟨rfl, e, rfl⟩⟩
      | ok prepared =>
        obtain ⟨blobs, records, pointers, hagree, horder, hconcludes⟩ :=
          storePublication_logged rpc crypto prepared hsent
        exact ⟨_, hagree, Or.inr ⟨existing, prepared, blobs, records, pointers, hprepare, rfl,
          horder, hconcludes⟩⟩

/-! ## Keys

What the record and the pointer name things by, what the stores are addressed
to and what the receipt reports are computed in different places of the
program. They are the same keys. -/

/-- The keys in a receipt are those the publication names things by. -/
structure KeysMatch (crypto : Crypto) (domain package : String) (publication : Publication)
    (prepared : PreparedPublication) (receipt : PublishReceipt) : Prop where
  /-- The blob is under its hash. -/
  blobKey_eq : receipt.blobKey = keyForValue crypto publication.blob
  /-- The record names the blob. -/
  blobHash_eq : prepared.record.body.blobHash = receipt.blobKey
  /-- The record is under its key. -/
  recordKey_eq : recordKey crypto prepared.record = some receipt.recordKey
  /-- The pointer names the record. -/
  versionRecordHash_eq : prepared.pointer.body.versionRecordHash = receipt.recordKey
  /-- The pointer is under the package's key. -/
  latestKey_eq : receipt.latestKey = latestKey crypto domain package

theorem Acknowledges.keysMatch {domain package : String} {publication : Publication}
    {existing : List (Signed VersionRecord)} {blobs records pointers : List Exchange}
    {receipt : PublishReceipt}
    (h : Acknowledges crypto prepared blobs records pointers receipt)
    (hprepare : preparePublication crypto domain package publication existing = .ok prepared) :
    KeysMatch crypto domain package publication prepared receipt := by
  obtain ⟨index, hprep⟩ := prepares_of_preparePublication hprepare
  obtain ⟨bytes, hbytes⟩ := Option.isSome_iff_exists.mp h.encodes
  have hkey : recordKey crypto prepared.record = some receipt.recordKey := by
    rw [recordKey_eq hbytes, h.receipt_eq]
    dsimp only [Stage.value]
    rw [hbytes]
    rfl
  have hblob : receipt.blobKey = keyForValue crypto publication.blob := by
    rw [h.receipt_eq, ← hprep.blob_eq]
    rfl
  refine ⟨hblob, ?_, hkey, Option.some.inj (hprep.record_key.symm.trans hkey), ?_⟩
  · rw [hblob, hprep.record_body]
  · rw [h.receipt_eq]
    show latestKey crypto prepared.pointer.body.domain prepared.pointer.body.package = _
    rw [hprep.pointer_body]

/-- Somebody acknowledged the record a pointer names, and the blob that record
names. -/
def Backed (rpc : Rpc τ ν) (crypto : Crypto) (before : List Exchange)
    (pointer : Signed LatestPointer) : Prop :=
  ∃ blob record bytes, recordKey crypto record = some pointer.body.versionRecordHash
    ∧ record.body.blobHash = keyForValue crypto blob ∧ serialize record = some bytes
    ∧ (∃ e ∈ before, e.acknowledged = true
      ∧ Offered rpc (keyForValue crypto blob) (.blob blob) [] [e])
    ∧ ∃ e ∈ before, e.acknowledged = true
      ∧ Offered rpc (keyForValue crypto bytes) (.blob bytes) [] [e]

omit [CloseNodes τ] in
theorem exists_acknowledged {es : List Exchange} {key : Key} {value : Value}
    {proof : List (Signed VersionRecord)} (h : Offered rpc key value proof es)
    (hpos : 0 < es.countP Exchange.acknowledged) :
    ∃ e ∈ es, e.acknowledged = true ∧ Offered rpc key value proof [e] := by
  obtain ⟨e, he, hack⟩ := List.countP_pos_iff.mp hpos
  exact ⟨e, he, hack, fun e' he' => List.mem_singleton.mp he' ▸ h e he⟩

omit [CloseNodes τ] in
/-- **A pointer is offered once what it names was acknowledged.** A request
that stores a pointer is of the last stage, for the other two store blobs; so
all of the first two stages are before it, and each of them has an
acknowledgement. -/
theorem StoredInOrder.backed {domain package : String} {publication : Publication}
    {existing : List (Signed VersionRecord)} {blobs records pointers : List Exchange}
    (h : StoredInOrder rpc crypto prepared blobs records pointers)
    (hprepare : preparePublication crypto domain package publication existing = .ok prepared)
    {before after : List Exchange} {e : Exchange}
    (hsplit : blobs ++ records ++ pointers = before ++ e :: after) {body : List UInt8}
    {peer : Contact} {request : StoreRequest} {pointer : Signed LatestPointer}
    (hreq : e.requests = [rpc.request .store body peer])
    (hdec : deserialize body = some request) (hvalue : request.value = .latest pointer) :
    Backed rpc crypto before pointer := by
  -- the call is one of the last, as the others store blobs
  have hearlier : e ∉ blobs ++ records := by
    intro he
    rcases List.mem_append.mp he with he | he
    · cases hvalue.symm.trans (congrArg StoreRequest.value (h.blob_round.value_eq he hreq hdec))
    · cases hvalue.symm.trans (congrArg StoreRequest.value (h.record_round.value_eq he hreq hdec))
  obtain ⟨c, hbefore, hpointers⟩ :
      ∃ c, before = blobs ++ records ++ c ∧ pointers = c ++ e :: after := by
    rcases List.append_eq_append_iff.mp hsplit with ⟨c, hbefore, hpointers⟩ |
      ⟨c, hblobs, hafter⟩
    · exact ⟨c, hbefore, hpointers⟩
    · cases c with
      | nil => exact ⟨[], by rw [hblobs, List.append_nil, List.append_nil], hafter.symm⟩
      | cons _ c =>
        cases hafter
        exact absurd (hblobs ▸ List.mem_append_right _ List.mem_cons_self) hearlier
  have he : e ∈ pointers := hpointers ▸ List.mem_append_right _ List.mem_cons_self
  obtain rfl : prepared.pointer = pointer := Value.latest.inj
    ((congrArg StoreRequest.value (h.pointer_round.value_eq he hreq hdec)).symm.trans hvalue)
  have hrecord := h.pointer_after (List.ne_nil_of_mem he)
  have hblob := h.record_after (fun hnil => by rw [hnil] at hrecord; cases hrecord)
  obtain ⟨index, hprep⟩ := prepares_of_preparePublication hprepare
  obtain ⟨bytes, hbytes, -⟩ := Option.map_eq_some_iff.mp hprep.record_key
  have hbytes' : Stage.record.value prepared = .blob bytes := by
    dsimp only [Stage.value]
    rw [hbytes]
    rfl
  obtain ⟨eb, heb, hackb, hoffb⟩ := exists_acknowledged h.blob_round hblob
  obtain ⟨er, her, hackr, hoffr⟩ := exists_acknowledged h.record_round hrecord
  rw [hbytes'] at hoffr
  rw [hbefore]
  exact ⟨prepared.blob, prepared.record, bytes, hprep.record_key,
    by rw [hprep.record_body, hprep.blob_eq], hbytes,
    ⟨eb, List.mem_append_left _ (List.mem_append_left _ heb), hackb, hoffb⟩,
    ⟨er, List.mem_append_left _ (List.mem_append_right _ her), hackr, hoffr⟩⟩

/-- The stores a publication sends, in order, and what became of them. -/
def Rpc.publishStores (rpc : Rpc τ ν) (crypto : Crypto) (domain package : String)
    (publication : Publication) (world : World τ ν) : List Exchange :=
  (rpc.logged.publishPackage crypto domain package publication world.logged).2.stores

/-- **Publishing checks first and stores in order.** Where a check fails
nothing was sent. What was sent is the blob, then the record, then the pointer,
each only after somebody acknowledged the one before; where all went well the
receipt counts who did, and its keys are those the record and the pointer name.
So a pointer is offered only after what it names was accepted.

This holds for any network, as it is about what the publisher does with the
answers and not about what they are: the record of stores is kept beside the
run, and leaves it as it is. It says nothing about who still has the blob when
the pointer is read; that takes assumptions about nodes. -/
theorem publishPackage_in_order (rpc : Rpc τ ν) (crypto : Crypto) (domain package : String)
    (publication : Publication) (world : World τ ν) :
    Agree (Sent (rpc.publishStores crypto domain package publication world))
        (rpc.publishPackage crypto domain package publication world)
        (rpc.logged.publishPackage crypto domain package publication world.logged)
      ∧ (∀ e, (rpc.publishPackage crypto domain package publication world).1 = .error e →
        e.isCheck = true → rpc.publishStores crypto domain package publication world = [])
      ∧ ((rpc.publishStores crypto domain package publication world = []
          ∧ ∃ e, (rpc.publishPackage crypto domain package publication world).1 = .error e)
        ∨ ∃ existing prepared blobs records pointers,
          preparePublication crypto domain package publication existing = .ok prepared
          ∧ rpc.publishStores crypto domain package publication world
            = blobs ++ records ++ pointers
          ∧ StoredInOrder rpc crypto prepared blobs records pointers
          ∧ ∀ receipt,
            (rpc.publishPackage crypto domain package publication world).1 = .ok receipt →
            Acknowledges crypto prepared blobs records pointers receipt
              ∧ KeysMatch crypto domain package publication prepared receipt)
      ∧ ∀ before e after body peer request pointer,
        rpc.publishStores crypto domain package publication world = before ++ e :: after →
        e.requests = [rpc.request .store body peer] →
        deserialize body = some (request : StoreRequest) → request.value = .latest pointer →
        Backed rpc crypto before pointer := by
  obtain ⟨sent, ⟨hsame, hplain, hstores⟩, hcases⟩ :=
    publishPackage_logged rpc crypto domain package publication (sent_logged world)
  have hsent : rpc.publishStores crypto domain package publication world = sent := hstores
  rw [hsent]
  refine ⟨⟨hsame, hplain, hstores⟩, ?_, ?_, ?_⟩
  · rintro e he hcheck
    rcases hcases with ⟨hnil, -⟩ | ⟨_, _, _, _, _, -, -, -, hconcludes⟩
    · exact hnil
    · rw [he] at hconcludes
      cases hcheck.symm.trans hconcludes
  · refine hcases.imp id ?_
    rintro ⟨existing, prepared, blobs, records, pointers, hprepare, rfl, horder, hconcludes⟩
    refine ⟨existing, prepared, blobs, records, pointers, hprepare, rfl, horder, ?_⟩
    intro receipt hreceipt
    rw [hreceipt] at hconcludes
    exact ⟨hconcludes, hconcludes.keysMatch hprepare⟩
  · intro before e after body peer request pointer hsplit hreq hdec hvalue
    rcases hcases with ⟨hnil, -⟩ | ⟨_, _, _, _, _, hprepare, hrounds, horder, -⟩
    · exact absurd (hnil.symm.trans hsplit) (List.append_ne_nil_of_right_ne_nil _
        (List.cons_ne_nil _ _)).symm
    · exact horder.backed hprepare (hrounds.symm.trans hsplit) hreq hdec hvalue

end Stages

/-! ## The phases of a publisher

The publishers of a system move from phase to phase, interleaved with each
other. Publishing on a network of one's own is such a walk through the phases,
from the start to the result. -/

section Phases

variable {τ ν : Type} [CloseNodes τ] {rpc : Rpc τ ν} {crypto : Crypto}
  {dns : String → Option VerifyingKey} {domain package : String} {publication : Publication}

/-- What a walk fetches can be written down beforehand. -/
theorem exists_answers {σ : Type} (crypto : Crypto) (latest : Signed LatestPointer)
    (owner : VerifyingKey) (domain package : String)
    (fetch : σ → Key → Option (List UInt8) × σ) (room : ℕ) (current : Key) (seen : List Key)
    (newer : Option Version) (chain : List (Signed VersionRecord)) (s : σ) :
    ∃ answers : List (Option (List UInt8)),
      (walkFrom crypto latest owner domain package (fun s _ => (s.head?.getD none, s.tail)) room
          current seen newer chain answers).1
        = (walkFrom crypto latest owner domain package fetch room current seen newer
            chain s).1 := by
  induction room generalizing current seen newer chain s with
  | zero => exact ⟨[], rfl⟩
  | succ room ih =>
    unfold walkFrom
    by_cases hseen : current ∈ seen
    · refine ⟨[], ?_⟩
      rw [if_pos hseen, if_pos hseen]
    · simp only [if_neg hseen]
      rcases fetch s current with ⟨bytes, s₁⟩
      cases bytes with
      | none => exact ⟨[none], rfl⟩
      | some bytes =>
        dsimp only
        cases hread : readRecord crypto latest owner domain package current newer bytes with
        | error e =>
          refine ⟨[some bytes], ?_⟩
          dsimp only [List.head?_cons, Option.getD_some]
          rw [hread]
        | ok record =>
          obtain ⟨answers, hrest⟩ := ih record.body.prev (current :: seen)
            (some record.body.version) (chain ++ [record]) s₁
          refine ⟨some bytes :: answers, ?_⟩
          dsimp only [List.head?_cons, Option.getD_some, List.tail_cons]
          rw [hread]
          dsimp only
          split
          · rfl
          · exact hrest

/-- The history of a pointer loads as it does from the network. -/
theorem exists_load (hdns : ∀ world domain, (rpc.getDnsVk domain world).1 = dns domain)
    (domain package : String) (publication : Publication) (pointer : Signed LatestPointer)
    (world : World τ ν) {N : Type} :
    ∃ answers, load crypto dns domain package publication pointer answers
      = (match (rpc.loadChainFromPointer crypto pointer world).1 with
        | .error e => .failed (.invalidExistingHistory e)
        | .ok existing => prepare crypto domain package publication existing : Phase N) := by
  obtain ⟨owner, v, hv⟩ : ∃ owner v, rpc.getDnsVk pointer.body.domain world = (owner, v) :=
    ⟨_, _, rfl⟩
  have howner : dns pointer.body.domain = owner := by
    rw [← hdns world, hv]
  unfold load Rpc.loadChainFromPointer
  rw [howner, hv]
  cases owner with
  | none => exact ⟨[], rfl⟩
  | some owner =>
    dsimp only
    unfold walkChain
    split
    · exact ⟨[], rfl⟩
    · obtain ⟨answers, hwalk⟩ := exists_answers crypto pointer owner pointer.body.domain
        pointer.body.package (rpc.fetchRecord crypto) maxChainLength
        pointer.body.versionRecordHash [] none [] v
      refine ⟨answers, ?_⟩
      cases hres : (walkFrom crypto pointer owner pointer.body.domain pointer.body.package
        (rpc.fetchRecord crypto) maxChainLength pointer.body.versionRecordHash [] none [] v).1 with
      | error e => simp only [hwalk, hres]
      | ok existing => simp only [hwalk, hres]

/-- Every valid pointer is heard. -/
theorem hear_steps {N : Type} {owner : VerifyingKey} (howner : dns domain = some owner)
    (values : List (Contact × Value)) (found : List (Signed LatestPointer))
    (h : ∀ p ∈ values, isLatestFor crypto owner domain package p.2 = true) :
    Relation.ReflTransGen (Phase.Steps crypto dns domain package publication)
      (.reading found : Phase N)
      (.reading (found ++ values.filterMap (fun p => p.2.pointer?))) := by
  induction values generalizing found with
  | nil =>
    rw [List.filterMap_nil, List.append_nil]
  | cons p values ih =>
    obtain ⟨hp, hvalues⟩ := List.forall_mem_cons.mp h
    obtain ⟨source, value⟩ := p
    cases value with
    | blob bytes => cases hp
    | latest pointer =>
      have hhear : hear crypto dns domain package found (some (.latest pointer))
          = found ++ [pointer] := by
        unfold hear
        rw [howner]
        exact if_pos hp
      have hfirst : Phase.Steps crypto dns domain package publication (.reading found : Phase N)
          (.reading (found ++ [pointer])) :=
        hhear ▸ .go (.answer found (some (.latest pointer)))
      have hrest := ih (found ++ [pointer]) hvalues
      rw [List.append_assoc] at hrest
      exact .head hfirst hrest

/-- The read of a call ends with what is the latest pointer on the network. -/
theorem exists_reading (hdns : ∀ world domain, (rpc.getDnsVk domain world).1 = dns domain)
    (domain package : String) (publication : Publication) (world : World τ ν) {N : Type} :
    ∃ found, Relation.ReflTransGen (Phase.Steps crypto dns domain package publication)
        (.reading [] : Phase N) (.reading found)
      ∧ maxByKey (fun pointer => pointer.body.version) found
        = (rpc.getLatest crypto domain package world).1 := by
  obtain ⟨owner, v, hv⟩ : ∃ owner v, rpc.getDnsVk domain world = (owner, v) := ⟨_, _, rfl⟩
  have howner : dns domain = owner := by
    rw [← hdns world, hv]
  unfold Rpc.getLatest
  rw [hv]
  cases owner with
  | none => exact ⟨[], .refl, rfl⟩
  | some owner =>
    refine ⟨_, hear_steps howner (rpc.lookupValues (latestKey crypto domain package)
      (isLatestFor crypto owner domain package) false v).1 [] ?_, rfl⟩
    exact fun p hp => accepted_of_mem_lookupValues hp

/-- **Reading and loading**, up to what is prepared or an error. -/
theorem existingHistory_steps (hdns : ∀ world domain, (rpc.getDnsVk domain world).1 = dns domain)
    (world : World τ ν) {N : Type} :
    Relation.ReflTransGen (Phase.Steps crypto dns domain package publication)
      (.reading [] : Phase N)
      (match (rpc.existingHistory crypto domain package world).1 with
        | .error e => .failed e
        | .ok existing => prepare crypto domain package publication existing) := by
  obtain ⟨found, hreading, hlatest⟩ := exists_reading hdns domain package publication world
  have hend : Phase.Steps crypto dns domain package publication (.reading found : Phase N)
      (endRead crypto domain package publication found) := .go (.endRead found)
  refine (hreading.tail hend).trans ?_
  unfold endRead Rpc.existingHistory
  rw [hlatest]
  rcases rpc.getLatest crypto domain package world with ⟨pointer, v⟩
  cases pointer with
  | none => exact .refl
  | some pointer =>
    obtain ⟨answers, hload⟩ := exists_load hdns domain package publication pointer v
    have hstep : Phase.Steps crypto dns domain package publication (.loading pointer : Phase N)
      (load crypto dns domain package publication pointer answers) := .go (.load pointer answers)
    rw [hload] at hstep
    dsimp only
    rcases hchain : rpc.loadChainFromPointer crypto pointer v with ⟨chain, u⟩
    rw [hchain] at hstep
    cases chain with
    | error e => exact .single hstep
    | ok existing => exact .single hstep

/-- Some more acknowledgements. -/
def Accepted.addAll {N : Type} (accepted : Accepted N) (nodes : List N) : Stage → Accepted N
  | .blob => { accepted with blob := accepted.blob ++ nodes }
  | .record => { accepted with record := accepted.record ++ nodes }
  | .pointer => { accepted with pointer := accepted.pointer ++ nodes }

theorem acknowledge_steps {N : Type} (stage : Stage) (prepared : PreparedPublication)
    (accepted : Accepted N) (nodes : List N) :
    Relation.ReflTransGen (Phase.Steps crypto dns domain package publication)
      (.storing stage prepared accepted)
      (.storing stage prepared (accepted.addAll nodes stage)) := by
  induction nodes generalizing accepted with
  | nil =>
    have hnone : accepted.addAll [] stage = accepted := by
      cases stage <;> simp [Accepted.addAll]
    rw [hnone]
  | cons node nodes ih =>
    have hcons : accepted.addAll (node :: nodes) stage
        = (accepted.add node stage).addAll nodes stage := by
      cases stage <;> simp [Accepted.addAll, Accepted.add]
    rw [hcons]
    exact .head (.acknowledge stage prepared accepted node) (ih (accepted.add node stage))

/-- A stage ends once its acknowledgements are in. -/
theorem stage_steps {N : Type} (stage : Stage) (prepared : PreparedPublication)
    (accepted : Accepted N) (nodes : List N) :
    Relation.ReflTransGen (Phase.Steps crypto dns domain package publication)
      (.storing stage prepared accepted)
      (advance stage prepared (accepted.addAll nodes stage)) :=
  (acknowledge_steps stage prepared accepted nodes).tail (.go (.advance ..))

/-- The nodes that acknowledge a round of stores. -/
theorem exists_acknowledging (rpc : Rpc τ ν) (key : Key) (value : Value)
    (proof : List (Signed VersionRecord)) (targets : List Contact) (accepted : ℕ)
    (world : World τ ν) :
    ∃ nodes : List Contact, nodes.Sublist targets
      ∧ (rpc.storeOn key value proof targets accepted world).1 = accepted + nodes.length := by
  induction targets generalizing accepted world with
  | nil => exact ⟨[], List.Sublist.refl _, rfl⟩
  | cons target targets ih =>
    unfold Rpc.storeOn
    dsimp only
    obtain ⟨nodes, hsub, hcount⟩ := ih (if (rpc.storeWithProof target key value proof world).1
      then accepted + 1 else accepted) (rpc.storeWithProof target key value proof world).2
    rw [hcount]
    split
    · exact ⟨target :: nodes, hsub.cons_cons target, by rw [List.length_cons]; omega⟩
    · exact ⟨nodes, hsub.cons target, rfl⟩

/-- What storing one of the three returns, by the nodes that acknowledge it. -/
theorem exists_storeStage_eq (rpc : Rpc τ ν) (crypto : Crypto) (prepared : PreparedPublication)
    (stage : Stage) (world : World τ ν) :
    ∃ (nodes : List Contact) (world' : World τ ν), rpc.storeStage crypto prepared stage world
      = (if nodes.isEmpty then .error stage.notStored
        else .ok ((stage.value prepared).key crypto, nodes.length), world') := by
  obtain ⟨nodes, -, hcount⟩ := exists_acknowledging rpc ((stage.value prepared).key crypto)
    (stage.value prepared) (stage.proof prepared)
    (rpc.targets ((stage.value prepared).key crypto) world).1 0
    (rpc.targets ((stage.value prepared).key crypto) world).2
  rw [Nat.zero_add] at hcount
  refine ⟨nodes, (rpc.storeStage crypto prepared stage world).2, Prod.ext ?_ rfl⟩
  unfold Rpc.storeStage Rpc.storeValueWithProof
  dsimp only
  rw [hcount]
  cases nodes <;> rfl

/-- **Storing all three.** -/
theorem storePublication_steps (rpc : Rpc τ ν) (prepared : PreparedPublication)
    (world : World τ ν) :
    ∃ phase : Phase Contact, Relation.ReflTransGen
        (Phase.Steps crypto dns domain package publication)
        (.storing .blob prepared ⟨[], [], []⟩) phase
      ∧ phase.result crypto = some (rpc.storePublication crypto prepared world).1 := by
  unfold Rpc.storePublication
  obtain ⟨blobs, v, hv⟩ := exists_storeStage_eq rpc crypto prepared .blob world
  rw [hv]
  cases blobs with
  | nil => exact ⟨_, stage_steps .blob prepared ⟨[], [], []⟩ [], rfl⟩
  | cons b blobs =>
    have hblob : Relation.ReflTransGen (Phase.Steps crypto dns domain package publication)
        (.storing .blob prepared ⟨[], [], []⟩)
        (if (serialize prepared.record).isNone then .failed .encodingFailed
          else .storing .record prepared ⟨b :: blobs, [], []⟩ : Phase Contact) :=
      stage_steps .blob prepared ⟨[], [], []⟩ (b :: blobs)
    dsimp only [List.isEmpty_cons]
    by_cases hser : (serialize prepared.record).isNone
    · rw [if_pos hser] at hblob
      exact ⟨_, hblob, by simp [hser, Phase.result]⟩
    · rw [if_neg hser] at hblob
      simp only [Bool.false_eq_true, if_false, hser]
      obtain ⟨records, u, hu⟩ := exists_storeStage_eq rpc crypto prepared .record v
      rw [hu]
      cases records with
      | nil =>
        exact ⟨_, hblob.trans (stage_steps .record prepared ⟨b :: blobs, [], []⟩ []), rfl⟩
      | cons r records =>
        have hrecord : Relation.ReflTransGen (Phase.Steps crypto dns domain package publication)
            (.storing .record prepared ⟨b :: blobs, [], []⟩)
            (.storing .pointer prepared ⟨b :: blobs, r :: records, []⟩ : Phase Contact) :=
          stage_steps .record prepared ⟨b :: blobs, [], []⟩ (r :: records)
        obtain ⟨pointers, t, ht⟩ := exists_storeStage_eq rpc crypto prepared .pointer u
        dsimp only [List.isEmpty_cons]
        simp only [Bool.false_eq_true, if_false]
        rw [ht]
        refine ⟨_, (hblob.trans hrecord).trans
          (stage_steps .pointer prepared ⟨b :: blobs, r :: records, []⟩ pointers), ?_⟩
        cases pointers with
        | nil => rfl
        | cons p pointers => rfl

omit [CloseNodes τ] in
/-- The call begins as its key is checked. -/
theorem begin_eq (hdns : ∀ world domain, (rpc.getDnsVk domain world).1 = dns domain)
    (domain : String) (publication : Publication) (world : World τ ν) {N : Type} :
    (begin crypto dns domain publication : Phase N)
      = match (rpc.checkSigner crypto domain publication world).1 with
        | .error e => .failed e
        | .ok _ => .reading [] := by
  unfold begin Rpc.checkSigner
  rw [← hdns world]
  split
  · rfl
  · rcases rpc.getDnsVk domain world with ⟨owner, v⟩
    cases owner with
    | none => rfl
    | some owner =>
      dsimp only
      split <;> rfl

/-- **Publishing walks through the phases**, from the start to what it returns,
where DNS has one answer per domain. So what was shown of the calls of a
system, for any answers and any order of acknowledgements, is about this
program: each of its answers is one that a system may give. -/
theorem publishPackage_steps (rpc : Rpc τ ν)
    (hdns : ∀ world domain, (rpc.getDnsVk domain world).1 = dns domain) (domain package : String)
    (publication : Publication) (world : World τ ν) :
    ∃ phase : Phase Contact, Relation.ReflTransGen
        (Phase.Steps crypto dns domain package publication) .start phase
      ∧ phase.result crypto
        = some (rpc.publishPackage crypto domain package publication world).1 := by
  have hbegin : Phase.Steps crypto dns domain package publication (.start : Phase Contact)
      (begin crypto dns domain publication) := .go .begin
  rw [begin_eq hdns domain publication world] at hbegin
  unfold Rpc.publishPackage
  rcases hchecked : rpc.checkSigner crypto domain publication world with ⟨checked, v⟩
  rw [hchecked] at hbegin
  cases checked with
  | error e => exact ⟨.failed e, .single hbegin, rfl⟩
  | ok _ =>
    have hread : Relation.ReflTransGen (Phase.Steps crypto dns domain package publication)
        (.reading [] : Phase Contact) _ := existingHistory_steps hdns v
    rcases hloaded : rpc.existingHistory crypto domain package v with ⟨loaded, u⟩
    rw [hloaded] at hread
    dsimp only
    rw [hloaded]
    cases loaded with
    | error e => exact ⟨.failed e, .head hbegin hread, rfl⟩
    | ok existing =>
      have hstart := hread.head hbegin
      unfold prepare at hstart
      dsimp only at hstart ⊢
      cases hprepare : preparePublication crypto domain package publication existing with
      | error e =>
        rw [hprepare] at hstart
        exact ⟨.failed e, hstart, rfl⟩
      | ok prepared =>
        rw [hprepare] at hstart
        obtain ⟨phase, hstore, hresult⟩ := storePublication_steps rpc prepared u
        exact ⟨phase, hstart.trans hstore, hresult⟩

end Phases

namespace Sample

/-- A network that stores everything and has nothing. -/
def storing : Outside DumbBucket Unit where
  settle world requests :=
    (0, .ok (if requests.any Request.isStore then stored else encoding (FindValue.closest [])),
      world)
  getDnsVk world _ := (some owner, world)

/-- A publisher on this network. -/
def publisher : Rpc DumbBucket Unit := ⟨peer 255 9000, storing⟩

/-- The first version of the sample history. -/
def firstPublication : Publication :=
  ⟨⟨0, 0, 1⟩, Codec.textBytes "x", signingKey, none, false⟩

end Sample

example : (Sample.publisher.publishPackage Sample.crypto "a" "p" Sample.firstPublication
      ⟨⟨[]⟩, ()⟩).1
    = .ok ⟨Sample.first.body.blobHash, Sample.firstPointer.body.versionRecordHash,
      latestKey Sample.crypto "a" "p", 1, 1, 1⟩ := by
  decide +kernel

end Kademlia
