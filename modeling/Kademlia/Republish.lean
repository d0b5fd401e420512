import Kademlia.Ledger

/-!
# Republishing what a node stores

Once in a while a node stores what it holds again, on the nodes that are
nearest by then: blobs as they are, before pointers, and a pointer with its
history, which it loads from the network for that. What it holds is a snapshot,
and may be behind what others hold.

That does no harm. A pointer goes out only with a history that loaded, and a
history that loaded is one that validates (`validateChainProof_of_walkChain`),
so every receiver judges the pointer by its place in the history alone. The
pointer enters a slot that is vacant, or held by a squatting blob, or by an
ancestor, and leaves any other as it is (`GivesWay`).
-/

namespace Kademlia

/-- Whether a value is a latest pointer. -/
def Value.isLatest : Value → Bool
  | .blob _ => false
  | .latest _ => true

/-- Blobs before latest pointers, otherwise in the order they came. -/
def blobsFirst (values : List (Key × Value)) : List (Key × Value) :=
  Nearest.sortBy (fun a b => compare a.2.isLatest b.2.isLatest) values

namespace Rpc

variable {τ ν : Type} [CloseNodes τ] (rpc : Rpc τ ν) (crypto : Crypto)

/-- Store a value under a key, on the `K` nodes nearest to it. -/
def replicate (key : Key) (value : Value) (proof : List (Signed VersionRecord))
    (world : World τ ν) : World τ ν :=
  let (targets, world) := rpc.targets key world
  (rpc.storeOn key value proof targets 0 world).2

/-- Store one value again. A pointer whose history does not load is skipped. -/
def republishValue (entry : Key × Value) (world : World τ ν) : World τ ν :=
  match entry.2 with
  | .blob _ => rpc.replicate entry.1 entry.2 [] world
  | .latest pointer =>
    match rpc.loadChainFromPointer crypto pointer world with
    | (.error _, world) => world
    | (.ok chain, world) => rpc.replicate entry.1 entry.2 chain world

/-- **Store values again**, blobs first. -/
def republishValues (values : List (Key × Value)) (world : World τ ν) : World τ ν :=
  (blobsFirst values).foldl (fun world entry => rpc.republishValue crypto entry world) world

/-- The stores a round of republishing sends, in order. -/
def republishStores (values : List (Key × Value)) (world : World τ ν) : List Exchange :=
  (rpc.logged.republishValues crypto values world.logged).stores

end Rpc

/-! ## What is sent

The round is followed on the network that keeps a record. What goes on record
is, for each value in turn, a round of stores of that value; loading a history
in between stores nothing. -/

theorem blobsFirst_eq (values : List (Key × Value)) :
    blobsFirst values = (blobsFirst values).filter (fun entry => !entry.2.isLatest)
      ++ (blobsFirst values).filter (fun entry => entry.2.isLatest) :=
  Nearest.eq_filter_append_filter (Nearest.sortBy_sorted (fun _ _ => rfl) values)

section Sent

variable {τ ν : Type} [CloseNodes τ] {rpc : Rpc τ ν} {crypto : Crypto} {stores : List Exchange}
  {w : World τ ν} {w' : World τ (ν × List Exchange)}

/-- **What a call of a round asks for**: to store one of the values, a pointer
with a history that loaded. -/
structure Republishes (rpc : Rpc τ ν) (crypto : Crypto) (values : List (Key × Value))
    (e : Exchange) (request : StoreRequest) : Prop where
  /-- The call makes the request. -/
  offered : Offered rpc request.key request.value request.proof [e]
  /-- It is about one of the values. -/
  mem : (request.key, request.value) ∈ values
  /-- A pointer comes with its history. -/
  loaded : ∀ pointer, request.value = .latest pointer →
    ∃ world, (rpc.loadChainFromPointer crypto pointer world).1 = .ok request.proof

theorem Republishes.mono {values values' : List (Key × Value)} {e : Exchange}
    {request : StoreRequest} (h : Republishes rpc crypto values e request)
    (hsub : values ⊆ values') : Republishes rpc crypto values' e request :=
  ⟨h.offered, hsub h.mem, h.loaded⟩

theorem replicate_logged (rpc : Rpc τ ν) (key : Key) (value : Value)
    (proof : List (Signed VersionRecord)) (hw : Sent stores w w') :
    ∃ es, Sent (stores ++ es) (rpc.replicate key value proof w)
        (rpc.logged.replicate key value proof w')
      ∧ Offered rpc key value proof es := by
  obtain ⟨targets, v, v', hv, hv', hsent⟩ :=
    ((simulates_logged rpc stores).targets key hw).exists_eq
  obtain ⟨es, ⟨-, hsent⟩, hoffered, -⟩ := storeOn_logged rpc key value proof targets 0 hsent
  unfold Rpc.replicate
  rw [hv, hv']
  exact ⟨es, hsent, hoffered⟩

/-- One value again. -/
theorem republishValue_logged (rpc : Rpc τ ν) (crypto : Crypto) (entry : Key × Value)
    (hw : Sent stores w w') :
    ∃ es, Sent (stores ++ es) (rpc.republishValue crypto entry w)
        (rpc.logged.republishValue crypto entry w')
      ∧ ∀ e ∈ es, ∃ request, Republishes rpc crypto [entry] e request := by
  obtain ⟨key, value⟩ := entry
  -- what is stored, with whatever proof it is
  have hround : ∀ {stores proof} {v : World τ ν} {v' : World τ (ν × List Exchange)},
      Sent stores v v' → (∀ pointer, value = .latest pointer →
        ∃ world, (rpc.loadChainFromPointer crypto pointer world).1 = .ok proof) →
      ∃ es, Sent (stores ++ es) (rpc.replicate key value proof v)
          (rpc.logged.replicate key value proof v')
        ∧ ∀ e ∈ es, ∃ request, Republishes rpc crypto [(key, value)] e request := by
    intro stores proof v v' hv hloaded
    obtain ⟨es, hsent, hoffered⟩ := replicate_logged rpc key value proof hv
    refine ⟨es, hsent, fun e he => ⟨⟨key, value, proof⟩, fun e' he' => ?_,
      List.mem_singleton.mpr rfl, hloaded⟩⟩
    exact List.mem_singleton.mp he' ▸ hoffered e he
  unfold Rpc.republishValue
  cases value with
  | blob bytes => exact hround hw (fun _ h => (nomatch h))
  | latest pointer =>
    obtain ⟨chain, v, v', hv, hv', hsent⟩ :=
      ((simulates_logged rpc stores).loadChainFromPointer crypto pointer hw).exists_eq
    dsimp only
    rw [hv, hv']
    cases chain with
    | error e =>
      exact ⟨[], by rw [List.append_nil]; exact hsent, fun _ he => (nomatch he)⟩
    | ok chain =>
      refine hround hsent (fun p hp => ?_)
      cases hp
      exact ⟨w, congrArg Prod.fst hv⟩

/-- **Some values again**, one after another. -/
theorem republishAll_logged (rpc : Rpc τ ν) (crypto : Crypto) (entries : List (Key × Value))
    (hw : Sent stores w w') :
    ∃ es, Sent (stores ++ es)
        (entries.foldl (fun world entry => rpc.republishValue crypto entry world) w)
        (entries.foldl (fun world entry => rpc.logged.republishValue crypto entry world) w')
      ∧ ∀ e ∈ es, ∃ request, Republishes rpc crypto entries e request := by
  induction entries generalizing stores w w' with
  | nil => exact ⟨[], by rw [List.append_nil]; exact hw, fun _ he => (nomatch he)⟩
  | cons entry entries ih =>
    obtain ⟨es, hsent, hfirst⟩ := republishValue_logged rpc crypto entry hw
    obtain ⟨es', hsent, hrest⟩ := ih hsent
    refine ⟨es ++ es', List.append_assoc stores es es' ▸ hsent, fun e he => ?_⟩
    rcases List.mem_append.mp he with he | he
    · obtain ⟨request, h⟩ := hfirst e he
      exact ⟨request, h.mono (List.cons_subset_cons entry (List.nil_subset _))⟩
    · obtain ⟨request, h⟩ := hrest e he
      exact ⟨request, h.mono (List.subset_cons_self _ _)⟩

/-- **A round of republishing**: blobs, then pointers. The values are sorted by
their kind before anything is sent, so that the stores of blobs all come before
those of pointers, and a node that gets a pointer can be asked for its
records. -/
theorem republishValues_logged (rpc : Rpc τ ν) (crypto : Crypto) (values : List (Key × Value))
    (world : World τ ν) :
    ∃ blobs pointers, Sent (blobs ++ pointers) (rpc.republishValues crypto values world)
        (rpc.logged.republishValues crypto values world.logged)
      ∧ (∀ e ∈ blobs, ∃ request, Republishes rpc crypto values e request
        ∧ request.value.isLatest = false)
      ∧ ∀ e ∈ pointers, ∃ request, Republishes rpc crypto values e request
        ∧ request.value.isLatest = true := by
  have hmem : ∀ p, (blobsFirst values).filter p ⊆ values := fun p entry he =>
    Nearest.mem_sortBy.mp (List.mem_of_mem_filter he)
  unfold Rpc.republishValues
  rw [blobsFirst_eq, List.foldl_append, List.foldl_append]
  obtain ⟨blobs, hsent, hblobs⟩ := republishAll_logged rpc crypto
    ((blobsFirst values).filter (fun entry => !entry.2.isLatest)) (sent_logged world)
  obtain ⟨pointers, hsent, hpointers⟩ := republishAll_logged rpc crypto
    ((blobsFirst values).filter (fun entry => entry.2.isLatest)) hsent
  refine ⟨blobs, pointers, hsent, fun e he => ?_, fun e he => ?_⟩
  · obtain ⟨request, h⟩ := hblobs e he
    exact ⟨request, h.mono (hmem _), by simpa using List.of_mem_filter h.mem⟩
  · obtain ⟨request, h⟩ := hpointers e he
    exact ⟨request, h.mono (hmem _), (List.mem_filter.mp h.mem).2⟩

end Sent

/-! ## What a receiver makes of it -/

/-- **Republishing only helps.** Take what a node holds after any requests, and
any network. Blobs are sent before pointers, and a pointer under its own key,
with the history that loaded, which every receiver accepts as a proof. A
receiver then holds the pointer where its slot gave way, and what it held
before elsewhere; so on no node that is the work of requests a pointer is
rolled back or forked.

The key and the value of a store are those of the snapshot, and a node that is
the work of requests holds a value only under its own key. The history is the
one that was just loaded, and a history that was walked validates as it is.
From there it is an ordinary request, and what ordinary requests may do to a
slot is known. DNS is assumed to answer the receiver as it answered the
sender. -/
theorem republishValues_only_helps {τ ν : Type} [CloseNodes τ] (rpc : Rpc τ ν) (crypto : Crypto)
    (dns : String → Option VerifyingKey)
    (hdns : ∀ world domain, (rpc.getDnsVk domain world).1 = dns domain) (events : List Event)
    (values : List (Key × Value))
    (hvalues : ∀ entry ∈ values, (Node.empty.run crypto events).values entry.1 = some entry.2)
    (world : World τ ν) :
    Sent (rpc.republishStores crypto values world) (rpc.republishValues crypto values world)
        (rpc.logged.republishValues crypto values world.logged)
      ∧ (∃ blobs pointers, rpc.republishStores crypto values world = blobs ++ pointers
        ∧ (∀ e ∈ blobs, ∃ request, Republishes rpc crypto values e request
          ∧ request.value.isLatest = false)
        ∧ ∀ e ∈ pointers, ∃ request, Republishes rpc crypto values e request
          ∧ request.value.isLatest = true)
      ∧ ∀ e ∈ rpc.republishStores crypto values world, ∀ body peer,
        e.requests = [rpc.request .store body peer] →
        (∀ key pointer proof,
          deserialize body = some (⟨key, .latest pointer, proof⟩ : StoreRequest) →
          key = latestKey crypto pointer.body.domain pointer.body.package
          ∧ (∃ world', (rpc.loadChainFromPointer crypto pointer world').1 = .ok proof)
          ∧ (∃ owner, dns pointer.body.domain = some owner
            ∧ validateChainProof crypto pointer owner proof = .ok proof)
          ∧ ∀ before : Values,
            (GivesWay crypto pointer proof (before key) → (handle crypto dns before body).2
              = Function.update before key (some (.latest pointer)))
            ∧ (¬ GivesWay crypto pointer proof (before key) →
              (handle crypto dns before body).2 = before))
        ∧ ∀ events', Set.InjOn crypto.sha256 (hashed {b | b = body ∨ b ∈ arrivals events'}) →
          ∀ key value, (Node.empty.run crypto events').values key = some value →
            ∃ later, (handle crypto dns (Node.empty.run crypto events').values body).2 key
                = some later
              ∧ Follows crypto {b | b = body ∨ b ∈ arrivals events'} value later
              ∧ ∀ p q, value = .latest p → later = .latest q →
                ∃ chain chain', Validated crypto {b | b = body ∨ b ∈ arrivals events'} p chain
                  ∧ Validated crypto {b | b = body ∨ b ∈ arrivals events'} q chain'
                  ∧ chain <:+ chain' := by
  obtain ⟨blobs, pointers, ⟨hplain, hstores⟩, hblobs, hpointers⟩ :=
    republishValues_logged rpc crypto values world
  have hsent : rpc.republishStores crypto values world = blobs ++ pointers := hstores
  refine ⟨⟨hplain, rfl⟩, ⟨blobs, pointers, hsent, hblobs, hpointers⟩, ?_⟩
  intro e he body peer hreq
  obtain ⟨request, hrep⟩ : ∃ request, Republishes rpc crypto values e request := by
    rcases List.mem_append.mp (hsent ▸ he) with he | he
    · obtain ⟨request, hrep, -⟩ := hblobs e he
      exact ⟨request, hrep⟩
    · obtain ⟨request, hrep, -⟩ := hpointers e he
      exact ⟨request, hrep⟩
  refine ⟨fun key pointer proof hdec => ?_, fun events' hinj key value hvalue => ?_⟩
  · -- what is sent is an entry of the snapshot, which is under its own key
    obtain rfl : _ = request := hrep.offered.value_eq (List.mem_singleton.mpr rfl) hreq hdec
    obtain rfl : latestKey crypto pointer.body.domain pointer.body.package = key :=
      ((Node.ok_empty.run_ok events (fun _ hb => hb)).values _ _ (hvalues _ hrep.mem)).key_eq
    obtain ⟨world', hload⟩ := hrep.loaded pointer rfl
    obtain ⟨owner, howner, hval⟩ := loadChainFromPointer_validates hload
    rw [hdns] at howner
    refine ⟨rfl, ⟨world', hload⟩, ⟨owner, howner, hval⟩, fun before => ?_⟩
    rcases handle_latest_ok before hdec howner hval with ⟨hway, heq⟩ | ⟨hstays, heq⟩
    · rw [heq]
      exact ⟨fun _ => rfl, fun h => absurd hway h⟩
    · rw [heq]
      exact ⟨fun h => absurd h hstays, fun _ => rfl⟩
  · have hok : (Node.empty.run crypto events').Ok crypto {b | b = body ∨ b ∈ arrivals events'} :=
      Node.ok_empty.run_ok events' (fun _ hb => Or.inr hb)
    obtain ⟨hafter, hlater⟩ := hok.values.handle hinj dns (Or.inl rfl)
    obtain ⟨later, hl, hfollows⟩ := hlater key value hvalue
    exact ⟨later, hl, hfollows,
      (hok.values _ _ hvalue).exists_suffix hinj (hafter _ _ hl) hfollows⟩

namespace Sample

/-- What a node republishes after the second version was published. -/
def snapshot : List (Key × Value) := [(latestKey crypto "a" "p", .latest secondPointer)]

/-- A node that still holds the first version. -/
def behind : Values :=
  Function.update (fun _ => none) (latestKey crypto "a" "p") (some (.latest firstPointer))

/-- The call that republishes the second version. -/
def republished : Exchange :=
  ⟨[(client recordBlobs).request .store (body (.latest secondPointer) [second, first])
    (peer 255 9000)], 0, .ok (encoding (FindValue.closest []))⟩

end Sample

/-- The second version, republished to a node that holds the first. -/
theorem republishValues_only_helps_sample :
    (∀ entry ∈ Sample.snapshot,
        (Node.empty.run Sample.crypto Sample.events).values entry.1 = some entry.2)
      ∧ Sample.republished ∈ (Sample.client Sample.recordBlobs).republishStores Sample.crypto
        Sample.snapshot ⟨⟨[]⟩, ()⟩
      ∧ (handle Sample.crypto (fun _ => some Sample.owner) Sample.behind
          (Sample.body (.latest Sample.secondPointer) [Sample.second, Sample.first])).2
        = Function.update Sample.behind (latestKey Sample.crypto "a" "p")
          (some (.latest Sample.secondPointer)) := by
  have hvalues : ∀ entry ∈ Sample.snapshot,
      (Node.empty.run Sample.crypto Sample.events).values entry.1 = some entry.2 := by
    decide +kernel
  have hsent : Sample.republished ∈ (Sample.client Sample.recordBlobs).republishStores
      Sample.crypto Sample.snapshot ⟨⟨[]⟩, ()⟩ := by decide +kernel
  obtain ⟨-, -, hreceive⟩ := republishValues_only_helps (Sample.client Sample.recordBlobs)
    Sample.crypto (fun _ => some Sample.owner) (fun _ _ => rfl) Sample.events Sample.snapshot
    hvalues ⟨⟨[]⟩, ()⟩
  obtain ⟨hpointer, -⟩ := hreceive _ hsent _ (Sample.peer 255 9000) rfl
  obtain ⟨-, -, -, hhandle⟩ := hpointer (latestKey Sample.crypto "a" "p") Sample.secondPointer
    [Sample.second, Sample.first] (by decide +kernel)
  refine ⟨hvalues, hsent, (hhandle Sample.behind).1 ?_⟩
  have hslot : Sample.behind (latestKey Sample.crypto "a" "p")
      = some (.latest Sample.firstPointer) := Function.update_self ..
  rw [hslot]
  exact Or.inr ⟨by decide, Sample.first, by simp, by decide +kernel, rfl⟩

end Kademlia
