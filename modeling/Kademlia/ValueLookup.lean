import Kademlia.Lookup
import Kademlia.Store

/-!
# Looking up values

A value is asked for at the `K` nodes nearest to its key, ourselves included,
`alpha` at a time. Replies are checked where they come in: a blob has to hash
to the key, a latest pointer has to be the owner's, and a reply that does not
pass costs one call and nothing else. A blob ends the lookup, as there is
only one that hashes to the key. For a pointer every node is asked, and the
newest one wins, since a replica that missed an update answers with an older
one that is validly signed.

What peers reply is up to them, so all that is known of a value found is that
it passed (`accepted_of_mem_lookupValues`). The history of a pointer is
walked by looking up one record after another; what such a walk returns is
known from `walkChain_ok`, which asks nothing of the fetches.
-/

namespace Kademlia

/-- The last of the elements of greatest key. -/
def maxByKey {α ω : Type} [LinearOrder ω] (key : α → ω) : List α → Option α
  | [] => none
  | a :: l => some (l.foldl (fun best x => if key x < key best then best else x) a)

theorem maxByKey_mem {α ω : Type} [LinearOrder ω] {key : α → ω} {l : List α} {a : α}
    (h : maxByKey key l = some a) : a ∈ l := by
  have hfold : ∀ (l : List α) (b : α),
      l.foldl (fun best x => if key x < key best then best else x) b ∈ b :: l := by
    intro l
    induction l with
    | nil => exact fun b => List.mem_cons_self
    | cons x l ih =>
      intro b
      rw [List.foldl_cons]
      rcases List.mem_cons.mp (ih (if key x < key b then b else x)) with he | hl
      · rw [he]
        split
        · exact List.mem_cons_self
        · exact List.mem_cons_of_mem _ List.mem_cons_self
      · exact List.mem_cons_of_mem _ (List.mem_cons_of_mem _ hl)
  cases l with
  | nil => cases h
  | cons b l => exact Option.some.inj h ▸ hfold l b

/-- Whether a value is a blob that hashes to a key. -/
def isBlobFor (crypto : Crypto) (key : Key) : Value → Bool
  | .blob bytes => keyForValue crypto bytes == key
  | .latest _ => false

/-- Whether a value is a latest pointer of a package, signed by the owner. -/
def isLatestFor (crypto : Crypto) (owner : VerifyingKey) (domain package : String) :
    Value → Bool
  | .blob _ => false
  | .latest pointer => pointer.body.domain == domain && pointer.body.package == package
    && latestIsValid crypto pointer owner

/-- The pointer in a value. -/
def Value.pointer? : Value → Option (Signed LatestPointer)
  | .blob _ => none
  | .latest pointer => some pointer

namespace Rpc

variable {τ ν : Type} [CloseNodes τ] (rpc : Rpc τ ν)

/-- The nodes to ask about a key, or to store under it: the `K` nearest of
those found and ourselves. -/
def targets (key : Key) (world : World τ ν) : List Contact × World τ ν :=
  let (candidates, world) := rpc.lookupNode key world
  ((Nearest.dedupBy sameId
    (Nearest.sortBy (nearerTo key) (candidates ++ [rpc.myContact]))).take K, world)

/-- The loop of a value lookup, over the candidates not asked yet, the calls
in flight and what was found. -/
def lookupValuesLoop (key : Key) (accept : Value → Bool) (stopAtFirst : Bool) :
    (rounds : ℕ) → (candidates inFlight : List Contact) → (found : List (Contact × Value)) →
    World τ ν → List (Contact × Value) × World τ ν
  | 0, _, _, found, world => (found, world)
  | rounds + 1, candidates, inFlight, found, world =>
    let slots := alpha - inFlight.length
    match rpc.next .findValue ((serialize key).getD []) (inFlight ++ candidates.take slots)
        world with
    | none => (found, world)
    | some ((source, reply), inFlight, world) =>
      let candidates := candidates.drop slots
      match answerIn reply with
      | .value value =>
        if accept value then
          if stopAtFirst then (found ++ [(source, value)], world)
          else lookupValuesLoop key accept stopAtFirst rounds candidates inFlight
            (found ++ [(source, value)]) world
        -- a reply that does not pass costs one call, and the next candidate is asked
        else lookupValuesLoop key accept stopAtFirst rounds candidates inFlight found world
      | .closest contacts =>
        lookupValuesLoop key accept stopAtFirst rounds candidates inFlight found
          (offer contacts world)

/-- Ask the nodes nearest to a key for it, and collect the replies that are
accepted, or only the first of them. -/
def lookupValues (key : Key) (accept : Value → Bool) (stopAtFirst : Bool) (world : World τ ν) :
    List (Contact × Value) × World τ ν :=
  let (candidates, world) := rpc.targets key world
  rpc.lookupValuesLoop key accept stopAtFirst (candidates.length + 1) candidates [] [] world

variable (crypto : Crypto)

/-- Find the blob stored under a key, and who answered with it. -/
def lookupValue (key : Key) (world : World τ ν) :
    Option (Contact × List UInt8) × World τ ν :=
  let (found, world) := rpc.lookupValues key (isBlobFor crypto key) true world
  (match found.head? with
    | some (source, .blob bytes) => some (source, bytes)
    | _ => none, world)

/-- The newest valid latest pointer of a package. -/
def getLatest (domain package : String) (world : World τ ν) :
    Option (Signed LatestPointer) × World τ ν :=
  match rpc.getDnsVk domain world with
  | (none, world) => (none, world)
  | (some owner, world) =>
    let (found, world) := rpc.lookupValues (latestKey crypto domain package)
      (isLatestFor crypto owner domain package) false world
    (maxByKey (fun pointer => pointer.body.version)
      (found.filterMap (fun p => p.2.pointer?)), world)

/-- Fetch the bytes of a record from the network. -/
def fetchRecord (world : World τ ν) (key : Key) : Option (List UInt8) × World τ ν :=
  let (found, world) := rpc.lookupValue crypto key world
  (found.map Prod.snd, world)

/-- Find the latest pointer of a package, and load and verify its history. -/
def loadChain (domain package : String) (world : World τ ν) :
    Except ChainError (List (Signed VersionRecord)) × World τ ν :=
  match rpc.getDnsVk domain world with
  | (none, world) => (.error .noDnsKey, world)
  | (some owner, world) =>
    match rpc.getLatest crypto domain package world with
    | (none, world) => (.error .noLatestPointer, world)
    | (some latest, world) =>
      walkChain crypto latest owner domain package (rpc.fetchRecord crypto) world

/-- Load and verify the history of a given latest pointer. -/
def loadChainFromPointer (pointer : Signed LatestPointer) (world : World τ ν) :
    Except ChainError (List (Signed VersionRecord)) × World τ ν :=
  match rpc.getDnsVk pointer.body.domain world with
  | (none, world) => (.error .noDnsKey, world)
  | (some owner, world) =>
    walkChain crypto pointer owner pointer.body.domain pointer.body.package
      (rpc.fetchRecord crypto) world

end Rpc

/-! ## What is known of a value found

A value is accepted or not by a test on the value alone, made where the reply
comes in. So whatever is found passed the test, and that is all that is used of
lookups where nothing is known of the peers. -/

section Found

variable {τ ν : Type} [CloseNodes τ] {rpc : Rpc τ ν} {crypto : Crypto}

/-- **The rounds suffice**: each takes the reply of one call, so that more
rounds than there are calls change nothing. The number the loop is given, one
more than there are candidates, is only there to make it a recursion. -/
theorem lookupValuesLoop_rounds {key : Key} {accept : Value → Bool} {stopAtFirst : Bool}
    {rounds rounds' : ℕ} {candidates inFlight : List Contact} (found : List (Contact × Value))
    (world : World τ ν) (h : candidates.length + inFlight.length < rounds)
    (h' : candidates.length + inFlight.length < rounds') :
    rpc.lookupValuesLoop key accept stopAtFirst rounds candidates inFlight found world
      = rpc.lookupValuesLoop key accept stopAtFirst rounds' candidates inFlight found world := by
  -- on the rounds of one side, as both sides take the same reply
  induction rounds generalizing rounds' candidates inFlight found world with
  | zero => exact absurd h (Nat.not_lt_zero _)
  | succ rounds ih =>
    obtain ⟨rounds', rfl⟩ : ∃ n, rounds' = n + 1 := ⟨rounds' - 1, by omega⟩
    unfold Rpc.lookupValuesLoop
    dsimp only
    cases hnext : rpc.next .findValue ((serialize key).getD [])
        (inFlight ++ candidates.take (alpha - inFlight.length)) world with
    | none => rfl
    | some completed =>
      obtain ⟨⟨source, reply⟩, rest, world'⟩ := completed
      obtain ⟨-, hlen, -⟩ := Rpc.next_eq_some hnext
      rw [List.length_append, List.length_take] at hlen
      -- what is still to come has become one less
      have hfewer : (candidates.drop (alpha - inFlight.length)).length + rest.length
          < candidates.length + inFlight.length := by
        rw [List.length_drop]
        omega
      have hrec : ∀ (found : List (Contact × Value)) (world : World τ ν),
          rpc.lookupValuesLoop key accept stopAtFirst rounds
              (candidates.drop (alpha - inFlight.length)) rest found world
            = rpc.lookupValuesLoop key accept stopAtFirst rounds'
              (candidates.drop (alpha - inFlight.length)) rest found world :=
        fun found world => ih found world (hfewer.trans_le (Nat.le_of_lt_succ h))
          (hfewer.trans_le (Nat.le_of_lt_succ h'))
      dsimp only
      simp only [hrec]

/-- What the loop adds to what was found was accepted. -/
theorem accepted_of_mem_lookupValuesLoop {key : Key} {accept : Value → Bool}
    {stopAtFirst : Bool} {rounds : ℕ} {candidates inFlight : List Contact}
    {found : List (Contact × Value)} {world : World τ ν} {p : Contact × Value}
    (h : p ∈ (rpc.lookupValuesLoop key accept stopAtFirst rounds candidates inFlight found
      world).1) : p ∈ found ∨ accept p.2 = true := by
  induction rounds generalizing candidates inFlight found world with
  | zero => exact Or.inl h
  | succ rounds ih =>
    unfold Rpc.lookupValuesLoop at h
    dsimp only at h
    split at h
    · exact Or.inl h
    · next source reply inFlight' world' _ =>
      split at h
      · next value _ =>
        split at h
        · next haccept =>
          have hnew : p ∈ found ++ [(source, value)] → p ∈ found ∨ accept p.2 = true := by
            intro hp
            refine (List.mem_append.mp hp).imp id (fun hlast => ?_)
            rw [List.mem_singleton.mp hlast]
            exact haccept
          split at h
          · exact hnew h
          · exact (ih h).elim hnew Or.inr
        · exact ih h
      · exact ih h

/-- **A value found was accepted.** -/
theorem accepted_of_mem_lookupValues {key : Key} {accept : Value → Bool} {stopAtFirst : Bool}
    {world : World τ ν} {p : Contact × Value}
    (h : p ∈ (rpc.lookupValues key accept stopAtFirst world).1) : accept p.2 = true :=
  (accepted_of_mem_lookupValuesLoop h).resolve_left List.not_mem_nil

/-- **A blob found hashes to its key.** -/
theorem keyForValue_of_lookupValue {key : Key} {world : World τ ν} {source : Contact}
    {bytes : List UInt8} (h : (rpc.lookupValue crypto key world).1 = some (source, bytes)) :
    keyForValue crypto bytes = key := by
  unfold Rpc.lookupValue at h
  dsimp only at h
  split at h
  · next hhead =>
    cases h
    exact beq_iff_eq.mp (accepted_of_mem_lookupValues (List.mem_of_mem_head? hhead))
  · cases h

/-- **A history that loads is a valid chain** of the pointer found. Its records
came from peers, one lookup for each; that they are genuine and linked is what
the walk has checked. -/
theorem loadChain_ok {domain package : String} {world : World τ ν}
    {chain : List (Signed VersionRecord)}
    (h : (rpc.loadChain crypto domain package world).1 = .ok chain) :
    ∃ owner pointer, (rpc.getDnsVk domain world).1 = some owner
      ∧ (rpc.getLatest crypto domain package (rpc.getDnsVk domain world).2).1 = some pointer
      ∧ pointer.body.domain = domain ∧ pointer.body.package = package
      ∧ ValidChain crypto pointer owner chain := by
  unfold Rpc.loadChain at h
  split at h
  · cases h
  · next owner world₁ hdns =>
    split at h
    · cases h
    · next pointer world₂ hlatest =>
      obtain ⟨hdom, hpkg, -, hvalid, -⟩ := walkChain_ok (Prod.ext h rfl)
      rw [hdns]
      exact ⟨owner, pointer, rfl, by rw [hlatest], hdom, hpkg, hvalid⟩

/-- **The history of a given pointer validates as it loads.** So a node may
pass on what it has loaded, and every other node will take it for a proof. -/
theorem loadChainFromPointer_validates {pointer : Signed LatestPointer} {world : World τ ν}
    {chain : List (Signed VersionRecord)}
    (h : (rpc.loadChainFromPointer crypto pointer world).1 = .ok chain) :
    ∃ owner, (rpc.getDnsVk pointer.body.domain world).1 = some owner
      ∧ validateChainProof crypto pointer owner chain = .ok chain := by
  unfold Rpc.loadChainFromPointer at h
  split at h
  · cases h
  · next owner _ hdns =>
    exact ⟨owner, by rw [hdns], validateChainProof_of_walkChain (Prod.ext h rfl)⟩

/-- So it is a valid chain too. -/
theorem loadChainFromPointer_ok {pointer : Signed LatestPointer} {world : World τ ν}
    {chain : List (Signed VersionRecord)}
    (h : (rpc.loadChainFromPointer crypto pointer world).1 = .ok chain) :
    ∃ owner, (rpc.getDnsVk pointer.body.domain world).1 = some owner
      ∧ ValidChain crypto pointer owner chain := by
  obtain ⟨owner, hdns, hval⟩ := loadChainFromPointer_validates h
  exact ⟨owner, hdns, (validateChainProof_ok hval).1⟩

end Found

/-! ## A pointer determines its history -/

/-- **A pointer determines its history.** Two walks from it that succeed return
the same records, whatever was fetched in each; and where a node accepted the
pointer with some proof, every history that loads for it, through any network,
is the one the node validated.

A pointer names the newest record by hash and each record the one before, so
where hashes do not collide on the records of the two histories they cannot
differ. It does not matter whom the records came from, or whether the two agree
on the owner: a fetch that answers with something else makes the walk fail and
not return something else. -/
theorem pointer_determines_history (crypto : Crypto) (pointer : Signed LatestPointer) :
    (∀ (owner : VerifyingKey) (domain package : String) {σ σ' : Type}
        (fetch : σ → Key → Option (List UInt8) × σ) (fetch' : σ' → Key → Option (List UInt8) × σ')
        (s : σ) (s' : σ') (chain chain' : List (Signed VersionRecord)),
        (walkChain crypto pointer owner domain package fetch s).1 = .ok chain →
        (walkChain crypto pointer owner domain package fetch' s').1 = .ok chain' →
        Set.InjOn crypto.sha256 (encodings (recordsOf chain chain')) → chain = chain')
      ∧ ∀ (dns : String → Option VerifyingKey) (values : Values) (body : List UInt8) (key : Key)
        (proof : List (Signed VersionRecord)),
        deserialize body = some (⟨key, .latest pointer, proof⟩ : StoreRequest) →
        (handle crypto dns values body).1 = some stored →
        ∃ owner chain, dns pointer.body.domain = some owner
          ∧ validateChainProof crypto pointer owner proof = .ok chain
          ∧ ∀ {τ ν : Type} [CloseNodes τ] (rpc : Rpc τ ν) (world : World τ ν)
            (loaded : List (Signed VersionRecord)),
            (rpc.loadChainFromPointer crypto pointer world).1 = .ok loaded →
            Set.InjOn crypto.sha256 (encodings (recordsOf loaded chain)) → loaded = chain := by
  constructor
  · intro owner domain package σ σ' fetch fetch' s s' chain chain' h h' hinj
    obtain ⟨-, -, -, hvalid, -⟩ := walkChain_ok (Prod.ext h rfl)
    obtain ⟨-, -, -, hvalid', -⟩ := walkChain_ok (Prod.ext h' rfl)
    exact hvalid.toHistory.unique hinj hvalid'.toHistory
  · intro dns values body key proof hdec hack
    obtain ⟨entry, _, hreach, -, -⟩ := handle_acknowledged hack
    rcases reach_eq_some hreach with ⟨_, _, hdec', -, -⟩ |
      ⟨_, _, _, owner, chain, hdec', -, hdns, hval, -⟩
    · cases hdec.symm.trans hdec'
    · cases hdec.symm.trans hdec'
      refine ⟨owner, chain, hdns, hval, ?_⟩
      intro τ ν _ rpc world loaded hload hinj
      obtain ⟨_, -, hloaded⟩ := loadChainFromPointer_ok hload
      exact hloaded.toHistory.unique hinj (validateChainProof_ok hval).1.toHistory

namespace Sample

/-- The answer to a value query by a node that holds some values. -/
def answer (values : List Value) (request : Request) : FindValue :=
  match values.find? (fun v => (v.key crypto).toList
      == request.payload.drop (idBytes + Method.findValue.tag.length)) with
  | some value => .value value
  | none => .closest []

/-- A network of one node that holds some values. -/
def holding (values : List Value) : Outside DumbBucket Unit where
  settle world requests :=
    (0, .ok (encoding (((requests.map (answer values)).head?).getD (.closest []))), world)
  getDnsVk world _ := (some owner, world)

/-- A client on its own, with an empty routing table. -/
def client (values : List Value) : Rpc DumbBucket Unit := ⟨peer 255 9000, holding values⟩

/-- The records of the two versions, as they are stored. -/
def recordBlobs : List Value := [.blob (encoding first), .blob (encoding second)]

/-- The digests of the records are in the table. -/
theorem encodings_subset :
    encodings (recordsOf [second, first] [second, first]) ⊆ {bs | bs ∈ digests.map Prod.fst} := by
  have h : ∀ r ∈ [second, first], ∀ bs ∈ serialize r, bs ∈ digests.map Prod.fst := by
    decide +kernel
  rintro bs ⟨r, hr, hbs⟩
  exact h r (hr.elim id id) bs hbs

end Sample

/-- The history of the second version: fetched from a list of answers, from
the network, and validated by a node that accepts it. -/
theorem pointer_determines_history_sample :
    ∃ chain chain' owner validated,
      (walkChain Sample.crypto Sample.secondPointer Sample.owner "a" "p"
          (fun s _ => (s.head?, s.tail))
          [Sample.encoding Sample.second, Sample.encoding Sample.first]).1
        = .ok chain
      ∧ (walkChain Sample.crypto Sample.secondPointer Sample.owner "a" "p"
          ((Sample.client Sample.recordBlobs).fetchRecord Sample.crypto) ⟨⟨[]⟩, ()⟩).1
        = .ok chain'
      ∧ (handle Sample.crypto (fun _ => some Sample.owner) (fun _ => none)
          (Sample.body (.latest Sample.secondPointer) [Sample.first, Sample.second])).1
        = some stored
      ∧ ((Sample.client Sample.recordBlobs).loadChainFromPointer Sample.crypto
          Sample.secondPointer ⟨⟨[]⟩, ()⟩).1 = .ok chain'
      ∧ validateChainProof Sample.crypto Sample.secondPointer owner
          [Sample.first, Sample.second] = .ok validated
      ∧ chain = chain' ∧ chain' = validated := by
  have hinj := Sample.injOn_sha256.mono Sample.encodings_subset
  obtain ⟨hwalks, hloads⟩ := pointer_determines_history Sample.crypto Sample.secondPointer
  obtain ⟨owner, validated, hdns, hval, hsame⟩ := hloads (fun _ => some Sample.owner)
    (fun _ => none) (Sample.body (.latest Sample.secondPointer) [Sample.first, Sample.second])
    (latestKey Sample.crypto "a" "p") [Sample.first, Sample.second] (by decide +kernel)
    (by decide +kernel)
  obtain rfl : Sample.owner = owner := Option.some.inj hdns
  obtain rfl : [Sample.second, Sample.first] = validated := by
    have h : validateChainProof Sample.crypto Sample.secondPointer Sample.owner
      [Sample.first, Sample.second] = .ok [Sample.second, Sample.first] := by decide +kernel
    exact Except.ok.inj (h.symm.trans hval)
  have hlist : (walkChain Sample.crypto Sample.secondPointer Sample.owner "a" "p"
      (fun s _ => (s.head?, s.tail))
      [Sample.encoding Sample.second, Sample.encoding Sample.first]).1
      = .ok [Sample.second, Sample.first] := by decide +kernel
  have hnet : (walkChain Sample.crypto Sample.secondPointer Sample.owner "a" "p"
      ((Sample.client Sample.recordBlobs).fetchRecord Sample.crypto) ⟨⟨[]⟩, ()⟩).1
      = .ok [Sample.second, Sample.first] := by decide +kernel
  exact ⟨_, _, Sample.owner, _, hlist, hnet, by decide +kernel, hnet, hval,
    hwalks _ _ _ _ _ _ _ _ _ hlist hnet hinj,
    hsame (Sample.client Sample.recordBlobs) ⟨⟨[]⟩, ()⟩ _ hnet hinj⟩

end Kademlia
