import Kademlia.Publication

/-!
# Publishers and nodes

Any number of publishers publish versions of one package, at the same time
and on any number of nodes. A publisher reads the latest pointer from
whichever nodes answer, loads its history, prepares the publication, and
stores the blob, then the record, then the pointer; each is offered to node
after node, and one acknowledgement is enough to go on. Requests and
acknowledgements get lost. Nodes serve other requests besides.

The system is a machine over events. A publisher is where it is between two
of its steps (`Phase`), and every step of every party is an event of its own,
so a run is an interleaving. As nodes take DNS's word for the owner and only
the final step of a handler looks at the store, serving a request is one
event too.

A publication that succeeded can be lost: the next publisher may read from
nodes that missed it, and store on nodes that missed it, and then succeeds
with a history that does not contain it. What a node does rule out is that it
acknowledges both. For two publications with an acknowledgement from a common
node, the history of one is a suffix of the history of the other.
-/

namespace Kademlia

/-- What a publisher stores, in order. -/
inductive Stage where
  /-- The package's bytes. -/
  | blob
  /-- The record of the version. -/
  | record
  /-- The pointer to it. -/
  | pointer
deriving DecidableEq

/-- The nodes that acknowledged each of the three. -/
structure Accepted (N : Type) where
  /-- Those that stored the blob. -/
  blob : List N
  /-- Those that stored the record. -/
  record : List N
  /-- Those that stored the pointer. -/
  pointer : List N
deriving DecidableEq

/-- Where a publisher is. -/
inductive Phase (N : Type) where
  /-- Before anything. -/
  | start
  /-- Reading the latest pointer, with the valid ones that came in. -/
  | reading (found : List (Signed LatestPointer))
  /-- Loading the history of the newest one. -/
  | loading (pointer : Signed LatestPointer)
  /-- Storing. -/
  | storing (stage : Stage) (prepared : PreparedPublication) (accepted : Accepted N)
  /-- Returned with success. -/
  | published (prepared : PreparedPublication) (accepted : Accepted N)
  /-- Returned with an error. -/
  | failed (error : PublishError)
deriving DecidableEq

/-- What a publisher returns. -/
structure PublishReceipt where
  /-- The key of the blob. -/
  blobKey : Key
  /-- The key of the record. -/
  recordKey : Key
  /-- The key of the pointer. -/
  latestKey : Key
  /-- How many nodes stored the blob. -/
  blobAccepted : ℕ
  /-- How many nodes stored the record. -/
  recordAccepted : ℕ
  /-- How many nodes stored the pointer. -/
  latestAccepted : ℕ
deriving DecidableEq

/-- The error when nobody acknowledged. -/
def Stage.notStored : Stage → PublishError
  | .blob => .blobNotStored
  | .record => .recordNotStored
  | .pointer => .pointerNotStored

/-- What is stored. -/
def Stage.value (prepared : PreparedPublication) : Stage → Value
  | .blob => .blob prepared.blob
  | .record => .blob ((serialize prepared.record).getD [])
  | .pointer => .latest prepared.pointer

/-- The history that goes with it. -/
def Stage.proof (prepared : PreparedPublication) : Stage → List (Signed VersionRecord)
  | .pointer => prepared.proof
  | _ => []

/-- Those that acknowledged so far. -/
def Accepted.at {N : Type} (accepted : Accepted N) : Stage → List N
  | .blob => accepted.blob
  | .record => accepted.record
  | .pointer => accepted.pointer

/-- One more acknowledgement. -/
def Accepted.add {N : Type} (accepted : Accepted N) (node : N) : Stage → Accepted N
  | .blob => { accepted with blob := accepted.blob ++ [node] }
  | .record => { accepted with record := accepted.record ++ [node] }
  | .pointer => { accepted with pointer := accepted.pointer ++ [node] }

section Publisher

variable (crypto : Crypto) (dns : String → Option VerifyingKey) (domain package : String)
  (publication : Publication) {N : Type}

/-- Unless forced, the publisher first makes sure that its key is the
domain's. -/
def begin : Phase N :=
  if publication.force then .reading []
  else
    match dns domain with
    | none => .failed .noDnsKey
    | some owner =>
      if crypto.verifyingKey publication.signer ≠ owner then .failed .wrongSigningKey
      else .reading []

/-- Take in what a node answers: only a valid pointer counts. -/
def hear (found : List (Signed LatestPointer)) (answer : Option Value) :
    List (Signed LatestPointer) :=
  match dns domain, answer with
  | some owner, some (.latest pointer) =>
    if isLatestFor crypto owner domain package (.latest pointer) then found ++ [pointer] else found
  | _, _ => found

/-- Prepare, and go on to store. -/
def prepare (existing : List (Signed VersionRecord)) : Phase N :=
  match preparePublication crypto domain package publication existing with
  | .error e => .failed e
  | .ok prepared => .storing .blob prepared ⟨[], [], []⟩

/-- The read is over: the newest pointer's history comes next, if there is
one. -/
def endRead (found : List (Signed LatestPointer)) : Phase N :=
  match maxByKey (fun pointer => pointer.body.version) found with
  -- no answer is taken for no history
  | none => prepare crypto domain package publication []
  | some pointer => .loading pointer

/-- Load the history of a pointer, the network giving some answers in turn. -/
def load (pointer : Signed LatestPointer) (answers : List (Option (List UInt8))) : Phase N :=
  match dns pointer.body.domain with
  | none => .failed (.invalidExistingHistory .noDnsKey)
  | some owner =>
    match (walkChain crypto pointer owner pointer.body.domain pointer.body.package
        (fun s _ => (s.head?.getD none, s.tail)) answers).1 with
    | .error e => .failed (.invalidExistingHistory e)
    | .ok existing => prepare crypto domain package publication existing

/-- Every node was tried: go on if one acknowledged. -/
def advance (stage : Stage) (prepared : PreparedPublication) (accepted : Accepted N) :
    Phase N :=
  if (accepted.at stage).isEmpty then .failed stage.notStored
  else
    match stage with
    | .blob =>
      if (serialize prepared.record).isNone then .failed .encodingFailed
      else .storing .record prepared accepted
    | .record => .storing .pointer prepared accepted
    | .pointer => .published prepared accepted

/-- The request a publisher sends. -/
def requestOf (stage : Stage) (prepared : PreparedPublication) : Option (List UInt8) :=
  encodeRequestWithProof ((stage.value prepared).key crypto) (stage.value prepared)
    (stage.proof prepared)

/-- The receipt of a publication. -/
def receipt (prepared : PreparedPublication) (accepted : Accepted N) : PublishReceipt :=
  ⟨(Stage.blob.value prepared).key crypto, (Stage.record.value prepared).key crypto,
    (Stage.pointer.value prepared).key crypto, accepted.blob.length, accepted.record.length,
    accepted.pointer.length⟩

/-- What a publisher that returned has returned. -/
def Phase.result : Phase N → Option (Except PublishError PublishReceipt)
  | .published prepared accepted => some (.ok (receipt crypto prepared accepted))
  | .failed e => some (.error e)
  | _ => none

end Publisher

/-! ## The system

Nodes, calls and the requests that have arrived at a node. The last are there
for the statement only: hashes must not collide on what was sent. -/

/-- What can happen next. -/
inductive PublishEvent (N C : Type) where
  /-- A call begins. -/
  | begin (call : C)
  /-- A node answers the read of a call. -/
  | answer (call : C) (node : N)
  /-- The read of a call is over. -/
  | endRead (call : C)
  /-- A call loads a history, from what the network answers. -/
  | load (call : C) (answers : List (Option (List UInt8)))
  /-- A call sends its request to a node; it may get there, and the
  acknowledgement may get back. -/
  | store (call : C) (node : N) (arrives returns : Bool)
  /-- A call goes on. -/
  | advance (call : C)
  /-- A node is sent a request by someone else. -/
  | other (node : N) (body : List UInt8)

/-- The nodes, the calls, and the requests that were sent. -/
structure System (N C : Type) where
  /-- What each node stores. -/
  nodes : N → Values
  /-- Where each call is. -/
  phases : C → Phase N
  /-- The requests that arrived at a node. -/
  sent : List (List UInt8)

/-- Nothing stored, nobody started. -/
def System.init {N C : Type} : System N C := ⟨fun _ _ => none, fun _ => .start, []⟩

section Step

variable {N C : Type} [DecidableEq N] [DecidableEq C]
variable (crypto : Crypto) (dns : String → Option VerifyingKey) (domain package : String)
  (publications : C → Publication)

/-- Move a call to a phase. -/
def System.move (sys : System N C) (call : C) (phase : Phase N) : System N C :=
  { sys with phases := Function.update sys.phases call phase }

/-- A node serves a request. -/
def System.serve (sys : System N C) (node : N) (body : List UInt8) : System N C :=
  { sys with
    nodes := Function.update sys.nodes node (handle crypto dns (sys.nodes node) body).2
    sent := sys.sent ++ [body] }

/-- A call sends its request to a node. -/
def System.store (sys : System N C) (call : C) (node : N) (arrives returns : Bool) :
    System N C :=
  match sys.phases call with
  | .storing stage prepared accepted =>
    match requestOf crypto stage prepared with
    | none => sys
    | some body =>
      if ¬ arrives then sys
      -- an acknowledgement that gets lost still leaves the value stored
      else if (handle crypto dns (sys.nodes node) body).1 = some stored ∧ returns then
        (sys.serve crypto dns node body).move call
          (.storing stage prepared (accepted.add node stage))
      else sys.serve crypto dns node body
  | _ => sys

/-- The system after an event. An event for a call that is elsewhere changes
nothing. -/
def System.step (sys : System N C) : PublishEvent N C → System N C
  | .begin call =>
    match sys.phases call with
    | .start => sys.move call (Kademlia.begin crypto dns domain (publications call))
    | _ => sys
  | .answer call node =>
    match sys.phases call with
    | .reading found => sys.move call (.reading (hear crypto dns domain package found
        (sys.nodes node (latestKey crypto domain package))))
    | _ => sys
  | .endRead call =>
    match sys.phases call with
    | .reading found =>
      sys.move call (Kademlia.endRead crypto domain package (publications call) found)
    | _ => sys
  | .load call answers =>
    match sys.phases call with
    | .loading pointer => sys.move call
        (Kademlia.load crypto dns domain package (publications call) pointer answers)
    | _ => sys
  | .store call node arrives returns => sys.store crypto dns call node arrives returns
  | .advance call =>
    match sys.phases call with
    | .storing stage prepared accepted =>
      sys.move call (Kademlia.advance stage prepared accepted)
    | _ => sys
  | .other node body => sys.serve crypto dns node body

/-- The system after a sequence of events. -/
def System.run (sys : System N C) (events : List (PublishEvent N C)) : System N C :=
  events.foldl (System.step crypto dns domain package publications) sys

end Step

/-! ## What an event does

A call goes through its phases one step at a time (`Phase.Goes`), or a node
acknowledges one of its requests. What a call has on offer, the publication it
prepared and the nodes that acknowledged the pointer, is all that matters about
it later; most steps leave it as it is. -/

section Cases

variable {N C : Type} {crypto : Crypto} {dns : String → Option VerifyingKey}
  {domain package : String}

/-- What a call has prepared, and who acknowledged the pointer. -/
def Phase.offered {N : Type} : Phase N → Option (PreparedPublication × List N)
  | .storing _ prepared accepted => some (prepared, accepted.pointer)
  | .published prepared accepted => some (prepared, accepted.pointer)
  | _ => none

/-- A publication on top of a history in descending order. -/
def Prepared (crypto : Crypto) (domain package : String) (prepared : PreparedPublication) :
    Prop :=
  ∃ existing : List (Signed VersionRecord),
    existing.Pairwise (fun r s => s.body.version < r.body.version)
      ∧ Extends crypto domain package existing prepared

/-- A phase a call moves to by itself, from another: nothing is prepared, or
just has been, or what was acknowledged stays. -/
def Moves (crypto : Crypto) (domain package : String) {N : Type} (old new : Phase N) : Prop :=
  new.offered = none
    ∨ (∃ prepared, Prepared crypto domain package prepared ∧ new.offered = some (prepared, []))
    ∨ new.offered = old.offered

theorem moves_begin (old : Phase N) (publication : Publication) :
    Moves crypto domain package old (begin crypto dns domain publication) := by
  refine Or.inl ?_
  unfold begin
  split
  · rfl
  · split
    · rfl
    · split <;> rfl

theorem moves_prepare (old : Phase N) (publication : Publication)
    {existing : List (Signed VersionRecord)}
    (h : existing.Pairwise (fun r s => s.body.version < r.body.version)) :
    Moves crypto domain package old (prepare crypto domain package publication existing) := by
  unfold prepare
  split
  · exact Or.inl rfl
  · next prepared hprep =>
    exact Or.inr (Or.inl ⟨prepared, ⟨existing, h, extends_of_preparePublication hprep⟩, rfl⟩)

theorem moves_endRead (old : Phase N) (publication : Publication)
    (found : List (Signed LatestPointer)) :
    Moves crypto domain package old (endRead crypto domain package publication found) := by
  unfold endRead
  split
  · exact moves_prepare old publication List.Pairwise.nil
  · exact Or.inl rfl

theorem moves_load (old : Phase N) (publication : Publication) (pointer : Signed LatestPointer)
    (answers : List (Option (List UInt8))) :
    Moves crypto domain package old
      (load crypto dns domain package publication pointer answers) := by
  unfold load
  split
  · exact Or.inl rfl
  · split
    · exact Or.inl rfl
    · next existing hwalk =>
      obtain ⟨-, -, -, hvalid, -⟩ := walkChain_ok (Prod.ext hwalk rfl)
      exact moves_prepare old publication hvalid.decreasing

theorem moves_advance (stage : Stage) (prepared : PreparedPublication) (accepted : Accepted N) :
    Moves crypto domain package (.storing stage prepared accepted)
      (advance stage prepared accepted) := by
  unfold advance
  split
  · exact Or.inl rfl
  · cases stage with
    | blob =>
      dsimp only
      split
      · exact Or.inl rfl
      · exact Or.inr (Or.inr rfl)
    | record => exact Or.inr (Or.inr rfl)
    | pointer => exact Or.inr (Or.inr rfl)

/-- **How a call goes on**, by itself or by an answer. -/
inductive Phase.Goes (crypto : Crypto) (dns : String → Option VerifyingKey)
    (domain package : String) (publication : Publication) {N : Type} : Phase N → Phase N → Prop
  /-- The call begins. -/
  | begin : Goes crypto dns domain package publication .start
      (Kademlia.begin crypto dns domain publication)
  /-- A node answers the read. -/
  | answer (found : List (Signed LatestPointer)) (answer : Option Value) :
      Goes crypto dns domain package publication (.reading found)
        (.reading (hear crypto dns domain package found answer))
  /-- The read is over. -/
  | endRead (found : List (Signed LatestPointer)) :
      Goes crypto dns domain package publication (.reading found)
        (Kademlia.endRead crypto domain package publication found)
  /-- The history is loaded. -/
  | load (pointer : Signed LatestPointer) (answers : List (Option (List UInt8))) :
      Goes crypto dns domain package publication (.loading pointer)
        (Kademlia.load crypto dns domain package publication pointer answers)
  /-- Every node was tried. -/
  | advance (stage : Stage) (prepared : PreparedPublication) (accepted : Accepted N) :
      Goes crypto dns domain package publication (.storing stage prepared accepted)
        (Kademlia.advance stage prepared accepted)

theorem Phase.Goes.moves {publication : Publication} {old new : Phase N}
    (h : Goes crypto dns domain package publication old new) :
    Moves crypto domain package old new := by
  cases h with
  | begin => exact moves_begin _ _
  | answer => exact Or.inl rfl
  | endRead found => exact moves_endRead _ _ found
  | load pointer answers => exact moves_load _ _ pointer answers
  | advance stage prepared accepted => exact moves_advance stage prepared accepted

/-- **How a call moves**: it goes on, or a node acknowledges. -/
inductive Phase.Steps (crypto : Crypto) (dns : String → Option VerifyingKey)
    (domain package : String) (publication : Publication) {N : Type} : Phase N → Phase N → Prop
  /-- The call goes on. -/
  | go {old new : Phase N} (h : old.Goes crypto dns domain package publication new) :
      Steps crypto dns domain package publication old new
  /-- A node acknowledges. -/
  | acknowledge (stage : Stage) (prepared : PreparedPublication) (accepted : Accepted N)
      (node : N) : Steps crypto dns domain package publication (.storing stage prepared accepted)
        (.storing stage prepared (accepted.add node stage))

variable [DecidableEq N] [DecidableEq C] (publications : C → Publication)

/-- **What an event does**: nothing, or it moves a call, or a node serves a
request, or a node serves the request of a call and the acknowledgement gets
back. A request of a call whose acknowledgement gets lost is of the third kind;
for the node it is like any other. -/
theorem System.step_cases (sys : System N C) (event : PublishEvent N C) :
    sys.step crypto dns domain package publications event = sys
      ∨ (∃ call phase,
        (sys.phases call).Goes crypto dns domain package (publications call) phase
        ∧ sys.step crypto dns domain package publications event = sys.move call phase)
      ∨ (∃ node body,
        sys.step crypto dns domain package publications event = sys.serve crypto dns node body)
      ∨ ∃ call node stage prepared accepted body,
        sys.phases call = .storing stage prepared accepted
        ∧ requestOf crypto stage prepared = some body
        ∧ (handle crypto dns (sys.nodes node) body).1 = some stored
        ∧ sys.step crypto dns domain package publications event
          = (sys.serve crypto dns node body).move call
              (.storing stage prepared (accepted.add node stage)) := by
  cases event with
  | begin call =>
    unfold System.step
    dsimp only
    split
    · next hphase => exact Or.inr (Or.inl ⟨call, _, hphase ▸ .begin, rfl⟩)
    · exact Or.inl rfl
  | answer call node =>
    unfold System.step
    dsimp only
    split
    · next hphase => exact Or.inr (Or.inl ⟨call, _, hphase ▸ .answer _ _, rfl⟩)
    · exact Or.inl rfl
  | endRead call =>
    unfold System.step
    dsimp only
    split
    · next hphase => exact Or.inr (Or.inl ⟨call, _, hphase ▸ .endRead _, rfl⟩)
    · exact Or.inl rfl
  | load call answers =>
    unfold System.step
    dsimp only
    split
    · next hphase => exact Or.inr (Or.inl ⟨call, _, hphase ▸ .load _ _, rfl⟩)
    · exact Or.inl rfl
  | store call node arrives returns =>
    unfold System.step System.store
    dsimp only
    split
    · next stage prepared accepted hphase =>
      split
      · exact Or.inl rfl
      · next body hbody =>
        split
        · exact Or.inl rfl
        · split
          · next hack =>
            exact Or.inr (Or.inr (Or.inr ⟨call, node, stage, prepared, accepted, body, hphase,
              hbody, hack.1, rfl⟩))
          · exact Or.inr (Or.inr (Or.inl ⟨node, body, rfl⟩))
    · exact Or.inl rfl
  | advance call =>
    unfold System.step
    dsimp only
    split
    · next hphase => exact Or.inr (Or.inl ⟨call, _, hphase ▸ .advance _ _ _, rfl⟩)
    · exact Or.inl rfl
  | other node body => exact Or.inr (Or.inr (Or.inl ⟨node, body, rfl⟩))

end Cases

/-! ## What nodes rule out

The argument is about one node. Once it has acknowledged a pointer it holds
that pointer or one that followed it, whatever it is sent (`Stands`); and what
it acknowledges later follows what it holds then. Both are invariants of the
system, the second from the first acknowledgement on (`Since`). -/

section Invariant

variable {N C : Type} {crypto : Crypto} {dns : String → Option VerifyingKey}
  {domain package : String} {bodies : Set (List UInt8)} {sys : System N C}

/-- A pointer stands on a node: the node holds it, or what followed it. -/
def Stands (crypto : Crypto) (bodies : Set (List UInt8)) (domain package : String)
    (values : Values) (pointer : Signed LatestPointer) : Prop :=
  ∃ value, values (latestKey crypto domain package) = some value
    ∧ Follows crypto bodies (.latest pointer) value

/-- **A system in order**: nodes hold what they may, and a pointer that a node
acknowledged stands there, its proof validated. -/
structure System.Ok (crypto : Crypto) (domain package : String) (bodies : Set (List UInt8))
    (sys : System N C) : Prop where
  /-- Every value stored may be where it is. -/
  values : ∀ node, AllHold crypto bodies (sys.nodes node)
  /-- What calls have prepared extends a history. -/
  prepared : ∀ call prepared accepted, (sys.phases call).offered = some (prepared, accepted) →
    Prepared crypto domain package prepared
  /-- What was acknowledged stands. -/
  stands : ∀ call prepared accepted, (sys.phases call).offered = some (prepared, accepted) →
    ∀ node ∈ accepted, Validated crypto bodies prepared.pointer prepared.proof
      ∧ Stands crypto bodies domain package (sys.nodes node) prepared.pointer

theorem System.ok_init : (System.init : System N C).Ok crypto domain package bodies :=
  ⟨fun _ _ _ h => (nomatch h), fun _ _ _ h => (nomatch h), fun _ _ _ h => (nomatch h)⟩

variable [DecidableEq N]

/-- A slot evolves as it may when a node serves a request. -/
theorem System.follows_serve (hinj : Set.InjOn crypto.sha256 (hashed bodies))
    (h : sys.Ok crypto domain package bodies) {node : N} {body : List UInt8}
    (hbody : body ∈ bodies) {n : N} {key : Key} {value : Value}
    (hv : sys.nodes n key = some value) :
    ∃ later, (sys.serve crypto dns node body).nodes n key = some later
      ∧ Follows crypto bodies value later := by
  by_cases hn : n = node
  · subst hn
    obtain ⟨later, hlater, hfollows⟩ := ((h.values n).handle hinj dns hbody).2 key value hv
    refine ⟨later, ?_, hfollows⟩
    show Function.update sys.nodes n _ n key = some later
    rw [Function.update_self]
    exact hlater
  · refine ⟨value, ?_, Follows.refl value⟩
    show Function.update sys.nodes node _ n key = some value
    rw [Function.update_of_ne hn]
    exact hv

/-- What stands keeps standing. -/
theorem System.stands_serve (hinj : Set.InjOn crypto.sha256 (hashed bodies))
    (h : sys.Ok crypto domain package bodies) {node : N} {body : List UInt8}
    (hbody : body ∈ bodies) {n : N} {pointer : Signed LatestPointer}
    (hstands : Stands crypto bodies domain package (sys.nodes n) pointer) :
    Stands crypto bodies domain package ((sys.serve crypto dns node body).nodes n) pointer := by
  obtain ⟨value, hv, hfollows⟩ := hstands
  obtain ⟨later, hlater, hnext⟩ := System.follows_serve hinj h hbody hv
  exact ⟨later, hlater, hfollows.trans (h.values n _ _ hv) hnext⟩

/-- Serving a request keeps a system in order. -/
theorem System.Ok.serve (hinj : Set.InjOn crypto.sha256 (hashed bodies))
    (h : sys.Ok crypto domain package bodies) (node : N) {body : List UInt8}
    (hbody : body ∈ bodies) :
    (sys.serve crypto dns node body).Ok crypto domain package bodies := by
  refine ⟨fun n => ?_, h.prepared, fun call prepared accepted ho n hn => ?_⟩
  · by_cases hn : n = node
    · subst hn
      show AllHold crypto bodies (Function.update sys.nodes n _ n)
      rw [Function.update_self]
      exact ((h.values n).handle hinj dns hbody).1
    · show AllHold crypto bodies (Function.update sys.nodes node _ n)
      rw [Function.update_of_ne hn]
      exact h.values n
  · obtain ⟨hval, hstands⟩ := h.stands call prepared accepted ho n hn
    exact ⟨hval, System.stands_serve hinj h hbody hstands⟩

variable [DecidableEq C]

omit [DecidableEq N] in
/-- After a call moved by itself, what it offers is what it offered, or new. -/
theorem offered_move {call : C} {phase : Phase N}
    (hmoves : Moves crypto domain package (sys.phases call) phase) {c : C}
    {prepared : PreparedPublication} {nodes : List N}
    (h : ((sys.move call phase).phases c).offered = some (prepared, nodes)) :
    (sys.phases c).offered = some (prepared, nodes)
      ∨ (Prepared crypto domain package prepared ∧ nodes = []) := by
  by_cases hc : c = call
  · subst hc
    have ho : phase.offered = some (prepared, nodes) := by simpa [System.move] using h
    rcases hmoves with hnone | ⟨p, hp, hnew⟩ | hsame
    · cases hnone.symm.trans ho
    · cases hnew.symm.trans ho
      exact Or.inr ⟨hp, rfl⟩
    · exact Or.inl (hsame ▸ ho)
  · exact Or.inl (by simpa [System.move, Function.update_of_ne hc] using h)

omit [DecidableEq N] in
/-- Moving a call keeps a system in order. -/
theorem System.Ok.move (h : sys.Ok crypto domain package bodies) {call : C} {phase : Phase N}
    (hmoves : Moves crypto domain package (sys.phases call) phase) :
    (sys.move call phase).Ok crypto domain package bodies := by
  refine ⟨h.values, fun c prepared nodes ho => ?_, fun c prepared nodes ho n hn => ?_⟩
  · rcases offered_move hmoves ho with hold | ⟨hp, -⟩
    · exact h.prepared c prepared nodes hold
    · exact hp
  · rcases offered_move hmoves ho with hold | ⟨-, rfl⟩
    · exact h.stands c prepared nodes hold n hn
    · exact absurd hn List.not_mem_nil

/-- **A pointer that a node acknowledges is put in its slot, and its proof was
validated as it is.** -/
theorem holds_of_acknowledged (hinj : Set.InjOn crypto.sha256 (hashed bodies))
    {prepared : PreparedPublication} (hprep : Prepared crypto domain package prepared)
    {body : List UInt8} (hbody : body ∈ bodies)
    (hreq : requestOf crypto .pointer prepared = some body) {values : Values}
    (hack : (handle crypto dns values body).1 = some stored) :
    Validated crypto bodies prepared.pointer prepared.proof
      ∧ (handle crypto dns values body).2 (latestKey crypto domain package)
        = some (.latest prepared.pointer) := by
  obtain ⟨existing, hdesc, hext⟩ := hprep
  have hdec := deserialize_serialize hreq
  obtain ⟨entry, value, hreach, henter, hset⟩ := handle_acknowledged hack
  rcases reach_eq_some hreach with ⟨_, _, hdec', -, -⟩ |
    ⟨key, pointer, proof, vk, chain, hdec', hkey, -, hval, rfl⟩
  · cases hdec.symm.trans hdec'
  · cases hdec.symm.trans hdec'
    have hvalidated : Validated crypto bodies prepared.pointer chain :=
      ⟨body, hbody, _, hdec, rfl, vk, hval⟩
    obtain rfl := hext.chain_eq_proof hdesc hval (hinj.mono hvalidated.encodings_subset)
    refine ⟨hvalidated, ?_⟩
    rcases enter_eq_some henter with ⟨_, _, hentry, -, -⟩ | ⟨_, p, _, hentry, rfl, -⟩
    · cases hentry
    · cases hentry
      rw [hset, ← hext.domain_eq, ← hext.package_eq]
      exact Function.update_self ..

/-- The phase of the call that was acknowledged, and of the others. -/
theorem offered_acknowledge {call : C} {node : N} {stage : Stage}
    {prepared : PreparedPublication} {accepted : Accepted N} {body : List UInt8}
    (hphase : sys.phases call = .storing stage prepared accepted) {c : C}
    {p : PreparedPublication} {nodes : List N}
    (h : ((((sys.serve crypto dns node body).move call
      (.storing stage prepared (accepted.add node stage))).phases c).offered = some (p, nodes))) :
    ∃ before, (sys.phases c).offered = some (p, before)
      ∧ ∀ n ∈ nodes, n ∈ before ∨ (c = call ∧ stage = .pointer ∧ p = prepared ∧ n = node) := by
  by_cases hc : c = call
  · subst hc
    have ho : some (prepared, (accepted.add node stage).pointer) = some (p, nodes) := by
      simpa [System.move, Phase.offered] using h
    cases ho
    refine ⟨accepted.pointer, by rw [hphase]; rfl, fun n hn => ?_⟩
    cases stage with
    | blob => exact Or.inl hn
    | record => exact Or.inl hn
    | pointer =>
      refine (List.mem_append.mp hn).imp id (fun hlast => ⟨rfl, rfl, rfl, ?_⟩)
      exact List.mem_singleton.mp hlast
  · refine ⟨nodes, ?_, fun n hn => Or.inl hn⟩
    simpa [System.move, System.serve, Function.update_of_ne hc] using h

/-- **An acknowledgement keeps a system in order.** -/
theorem System.Ok.acknowledge (hinj : Set.InjOn crypto.sha256 (hashed bodies))
    (h : sys.Ok crypto domain package bodies) {call : C} {node : N} {stage : Stage}
    {prepared : PreparedPublication} {accepted : Accepted N} {body : List UInt8}
    (hphase : sys.phases call = .storing stage prepared accepted)
    (hreq : requestOf crypto stage prepared = some body)
    (hack : (handle crypto dns (sys.nodes node) body).1 = some stored) (hbody : body ∈ bodies) :
    ((sys.serve crypto dns node body).move call
      (.storing stage prepared (accepted.add node stage))).Ok crypto domain package bodies := by
  have hserve : (sys.serve crypto dns node body).Ok crypto domain package bodies :=
    h.serve hinj node hbody
  have hprep : Prepared crypto domain package prepared :=
    h.prepared call prepared accepted.pointer (by rw [hphase]; rfl)
  refine ⟨hserve.values, fun c p nodes ho => ?_, fun c p nodes ho n hn => ?_⟩
  · obtain ⟨before, hbefore, -⟩ := offered_acknowledge hphase ho
    exact h.prepared c p before hbefore
  · obtain ⟨before, hbefore, hnew⟩ := offered_acknowledge hphase ho
    rcases hnew n hn with hn | ⟨-, rfl, rfl, rfl⟩
    · exact hserve.stands c p before hbefore n hn
    · obtain ⟨hval, hslot⟩ := holds_of_acknowledged hinj hprep hbody hreq hack
      refine ⟨hval, _, ?_, Follows.refl _⟩
      show Function.update sys.nodes n _ n _ = _
      rw [Function.update_self]
      exact hslot

variable {publications : C → Publication}

/-- Requests that were sent stay sent. -/
theorem System.sent_subset_step (sys : System N C) (event : PublishEvent N C) :
    sys.sent ⊆ (sys.step crypto dns domain package publications event).sent := by
  rcases sys.step_cases publications event with heq | ⟨_, _, -, heq⟩ | ⟨_, _, heq⟩ |
    ⟨_, _, _, _, _, _, -, -, -, heq⟩
  · rw [heq]
    exact List.Subset.refl _
  · rw [heq]
    exact List.Subset.refl _
  · rw [heq]
    exact List.subset_append_left _ _
  · rw [heq]
    exact List.subset_append_left _ _

/-- **Every event keeps a system in order.** One lemma above for each kind of
event. -/
theorem System.Ok.step (hinj : Set.InjOn crypto.sha256 (hashed bodies))
    (h : sys.Ok crypto domain package bodies) (event : PublishEvent N C)
    (hsent : ∀ body ∈ (sys.step crypto dns domain package publications event).sent,
      body ∈ bodies) :
    (sys.step crypto dns domain package publications event).Ok crypto domain package bodies := by
  rcases sys.step_cases publications event with
    heq | ⟨call, phase, hgoes, heq⟩ | ⟨node, body, heq⟩ |
    ⟨call, node, stage, prepared, accepted, body, hphase, hreq, hack, heq⟩
  · rw [heq]
    exact h
  · rw [heq]
    exact h.move hgoes.moves
  · rw [heq] at hsent ⊢
    exact h.serve hinj node (hsent body (List.mem_append_right _ List.mem_cons_self))
  · rw [heq] at hsent ⊢
    exact h.acknowledge hinj hphase hreq hack
      (hsent body (List.mem_append_right _ List.mem_cons_self))

theorem System.sent_subset_run (sys : System N C) (events : List (PublishEvent N C)) :
    sys.sent ⊆ (sys.run crypto dns domain package publications events).sent := by
  induction events generalizing sys with
  | nil => exact List.Subset.refl _
  | cons event events ih => exact List.Subset.trans (sys.sent_subset_step event) (ih _)

/-- **What events keep in a system in order, a run keeps.** -/
theorem System.Ok.run (hinj : Set.InjOn crypto.sha256 (hashed bodies)) {P : System N C → Prop}
    (hstep : ∀ (s : System N C) (event : PublishEvent N C), s.Ok crypto domain package bodies →
      (∀ body ∈ (s.step crypto dns domain package publications event).sent, body ∈ bodies) →
      P s → P (s.step crypto dns domain package publications event))
    (h : sys.Ok crypto domain package bodies) (events : List (PublishEvent N C))
    (hsent : ∀ body ∈ (sys.run crypto dns domain package publications events).sent,
      body ∈ bodies) (hP : P sys) :
    (sys.run crypto dns domain package publications events).Ok crypto domain package bodies
      ∧ P (sys.run crypto dns domain package publications events) := by
  induction events generalizing sys with
  | nil => exact ⟨h, hP⟩
  | cons event events ih =>
    have hnow : ∀ body ∈ (sys.step crypto dns domain package publications event).sent,
        body ∈ bodies := fun body hbody => hsent body (System.sent_subset_run _ events hbody)
    exact ih (h.step hinj event hnow) hsent (hstep sys event h hnow hP)

/-- From when a pointer stands on a node, the calls that were not acknowledged
there before are acknowledged with pointers that follow it. -/
def Since (crypto : Crypto) (bodies : Set (List UInt8)) (domain package : String) (node : N)
    (pointer : Signed LatestPointer) (call : C) (sys : System N C) : Prop :=
  Stands crypto bodies domain package (sys.nodes node) pointer
    ∧ ∀ prepared nodes, (sys.phases call).offered = some (prepared, nodes) → node ∈ nodes →
      Follows crypto bodies (.latest pointer) (.latest prepared.pointer)

/-- **Every event keeps this.** A new acknowledgement by the node is of a pointer
that the node then holds, and what it holds follows what stood there. -/
theorem Since.step (hinj : Set.InjOn crypto.sha256 (hashed bodies))
    (h : sys.Ok crypto domain package bodies) (event : PublishEvent N C)
    (hsent : ∀ body ∈ (sys.step crypto dns domain package publications event).sent,
      body ∈ bodies) {node : N} {pointer : Signed LatestPointer} {call : C}
    (hsince : Since crypto bodies domain package node pointer call sys) :
    Since crypto bodies domain package node pointer call
      (sys.step crypto dns domain package publications event) := by
  obtain ⟨hstands, hafter⟩ := hsince
  rcases sys.step_cases publications event with heq | ⟨c, phase, hgoes, heq⟩ | ⟨n, body, heq⟩ |
    ⟨c, n, stage, prepared, accepted, body, hphase, hreq, hack, heq⟩
  · rw [heq]
    exact ⟨hstands, hafter⟩
  · rw [heq]
    refine ⟨hstands, fun p nodes ho hn => ?_⟩
    rcases offered_move hgoes.moves ho with hold | ⟨-, rfl⟩
    · exact hafter p nodes hold hn
    · exact absurd hn List.not_mem_nil
  · rw [heq] at hsent ⊢
    have hbody := hsent body (List.mem_append_right _ List.mem_cons_self)
    exact ⟨System.stands_serve hinj h hbody hstands, hafter⟩
  · rw [heq] at hsent ⊢
    have hbody := hsent body (List.mem_append_right _ List.mem_cons_self)
    refine ⟨System.stands_serve hinj h hbody hstands, fun p nodes ho hn => ?_⟩
    obtain ⟨before, hbefore, hnew⟩ := offered_acknowledge hphase ho
    rcases hnew node hn with hn | ⟨-, rfl, rfl, rfl⟩
    · exact hafter p before hbefore hn
    · -- acknowledged now: the pointer took the slot from what follows the old one
      obtain ⟨value, hv, hfollows⟩ := hstands
      obtain ⟨later, hlater, hnext⟩ := System.follows_serve hinj h hbody hv
      have hprep := h.prepared c p accepted.pointer (by rw [hphase]; rfl)
      obtain ⟨-, hslot⟩ := holds_of_acknowledged hinj hprep hbody hreq hack
      have hnow : (sys.serve crypto dns node body).nodes node (latestKey crypto domain package)
          = some (.latest p.pointer) := by
        show Function.update sys.nodes node _ node _ = _
        rw [Function.update_self]
        exact hslot
      obtain rfl : .latest p.pointer = later := Option.some.inj (hnow.symm.trans hlater)
      exact hfollows.trans (h.values node _ _ hv) hnext

end Invariant

/-! ## Publications that share a node

Without a common node nothing is ruled out, and a run shows it. With one, the
order in which it acknowledged the two is the order of their histories. -/

namespace Sample

/-- Two publishers of version 0.0.1, with different blobs. -/
def rivals (call : Bool) : Publication :=
  ⟨⟨0, 0, 1⟩, Codec.textBytes (if call then "y" else "x"), signingKey, none, false⟩

/-- A publisher of version 0.0.1, and one of version 0.0.2. -/
def versions (call : Bool) : Publication :=
  ⟨⟨0, 0, if call then 2 else 1⟩, Codec.textBytes (if call then "y" else "x"), signingKey, none,
    false⟩

/-- A call that reads from a node, loads the history it finds there, and
stores on that node. -/
def publish (call node : Bool) (history : List (Option (List UInt8))) :
    List (PublishEvent Bool Bool) :=
  [.begin call, .answer call node, .endRead call, .load call history,
    .store call node true true, .advance call, .store call node true true, .advance call,
    .store call node true true, .advance call]

/-- Version 0.0.1 and then version 0.0.2, on one node. -/
def successive : List (PublishEvent Bool Bool) :=
  publish false false [] ++ publish true false [some (encoding first)]

/-- The system after a run. -/
def run (publications : Bool → Publication) (events : List (PublishEvent Bool Bool)) :
    System Bool Bool :=
  System.init.run crypto (fun _ => some owner) "a" "p" publications events

end Sample

/-- **A publication can be lost.** Version 0.0.1 is published on one node. Then
another publisher reads from a second node, which has nothing, publishes
another version 0.0.1 there, and succeeds; neither history contains the other.
A read that finds nothing is taken for a package that has no history, and one
acknowledgement is taken for success. -/
theorem publication_lost :
    ∃ prepared prepared' accepted accepted',
      (Sample.run Sample.rivals (Sample.publish false false [])).phases false
        = .published prepared accepted
      ∧ (Sample.run Sample.rivals (Sample.publish false false [])).phases true = .start
      ∧ (Sample.run Sample.rivals (Sample.publish false false []
          ++ Sample.publish true true [])).phases false = .published prepared accepted
      ∧ (Sample.run Sample.rivals (Sample.publish false false []
          ++ Sample.publish true true [])).phases true = .published prepared' accepted'
      ∧ ¬ (prepared.proof <:+ prepared'.proof ∨ prepared'.proof <:+ prepared.proof) := by
  refine ⟨⟨Codec.textBytes "x", Sample.first, Sample.firstPointer, [Sample.first]⟩,
    ⟨Codec.textBytes "y", Sample.fork, Sample.forkPointer, [Sample.fork]⟩,
    ⟨[false], [false], [false]⟩, ⟨[true], [true], [true]⟩, ?_⟩
  decide +kernel

section Common

variable {N C : Type} [DecidableEq N] [DecidableEq C]

/-- **Publications that share a node share a history.** In every interleaving
of any number of calls, with any reads, losses and other requests: of two calls
that returned with success and whose pointers a common node acknowledged, the
history of one is a suffix of the history of the other; and if one had returned
before the other began, its history is in the other's.

The node holds one value under the package's key. Both pointers stand there, so
each is followed by what the node holds at the end; the histories of both are
then parts of one history, and two suffixes of one list are ordered. For the
second part, take the run from where the first call returned. From then on its
pointer stands on the node, and what the node acknowledges follows it. -/
theorem history_suffix_of_common_node (crypto : Crypto) (dns : String → Option VerifyingKey)
    (domain package : String) (publications : C → Publication)
    (events : List (PublishEvent N C))
    (hinj : Set.InjOn crypto.sha256 (hashed {body | body ∈
      (System.init.run crypto dns domain package publications events).sent}))
    (call call' : C) {prepared prepared' : PreparedPublication} {accepted accepted' : Accepted N}
    (h : (System.init.run crypto dns domain package publications events).phases call
      = .published prepared accepted)
    (h' : (System.init.run crypto dns domain package publications events).phases call'
      = .published prepared' accepted')
    (node : N) (hn : node ∈ accepted.pointer) (hn' : node ∈ accepted'.pointer) :
    (prepared.proof <:+ prepared'.proof ∨ prepared'.proof <:+ prepared.proof)
      ∧ ∀ before after, events = before ++ after →
        (System.init.run crypto dns domain package publications before).phases call
          = .published prepared accepted →
        (System.init.run crypto dns domain package publications before).phases call' = .start →
        prepared.proof <:+ prepared'.proof := by
  have hoffered : ∀ {sys : System N C} {c : C} {p : PreparedPublication} {a : Accepted N},
      sys.phases c = .published p a → (sys.phases c).offered = some (p, a.pointer) :=
    fun hp => by rw [hp]; rfl
  obtain ⟨hok, -⟩ := System.ok_init.run hinj (P := fun _ => True) (fun _ _ _ _ _ => trivial)
    events (fun body hb => hb) trivial
  obtain ⟨hval, value, hv, hfollows⟩ := hok.stands call _ _ (hoffered h) node hn
  obtain ⟨hval', value', hv', hfollows'⟩ := hok.stands call' _ _ (hoffered h') node hn'
  constructor
  · -- both stand in one slot, so both histories are in the history there
    obtain rfl : value = value' := Option.some.inj (hv.symm.trans hv')
    cases value with
    | blob _ => exact absurd hfollows id
    | latest q =>
      obtain ⟨chain, hq⟩ := (hok.values node _ _ hv).latest q rfl
      exact List.suffix_or_suffix_of_suffix (suffix_of_follows hinj hval hq hfollows)
        (suffix_of_follows hinj hval' hq hfollows')
  · rintro before after rfl hbefore hstart
    have hrun : System.init.run crypto dns domain package publications (before ++ after)
        = (System.init.run crypto dns domain package publications before).run crypto dns domain
            package publications after := List.foldl_append
    rw [hrun] at h' hinj hval hval'
    obtain ⟨hokb, -⟩ := System.ok_init.run hinj (P := fun _ => True)
      (fun _ _ _ _ _ => trivial) before
      (fun body hb => System.sent_subset_run _ after hb) trivial
    obtain ⟨-, hstands⟩ := hokb.stands call _ _ (hoffered hbefore) node hn
    obtain ⟨-, -, hsince⟩ := hokb.run hinj
      (P := Since crypto _ domain package node prepared.pointer call')
      (fun s event hs hsent hp => hp.step hinj hs event hsent) after (fun body hb => hb)
      ⟨hstands, fun p nodes ho => by rw [hstart] at ho; cases ho⟩
    exact suffix_of_follows hinj hval hval' (hsince _ _ (hoffered h') hn')

end Common

/-- Two versions published one after the other on one node. -/
theorem history_suffix_of_common_node_sample :
    ∃ prepared prepared' accepted accepted',
      (Sample.run Sample.versions Sample.successive).phases false = .published prepared accepted
      ∧ (Sample.run Sample.versions Sample.successive).phases true
        = .published prepared' accepted'
      ∧ false ∈ accepted.pointer ∧ false ∈ accepted'.pointer
      ∧ prepared.proof <:+ prepared'.proof := by
  obtain ⟨h, h', hbefore, hstart, hsent⟩ :
      (Sample.run Sample.versions Sample.successive).phases false
        = .published ⟨Codec.textBytes "x", Sample.first, Sample.firstPointer, [Sample.first]⟩
          ⟨[false], [false], [false]⟩
      ∧ (Sample.run Sample.versions Sample.successive).phases true
        = .published ⟨Codec.textBytes "y", Sample.second, Sample.secondPointer,
          [Sample.second, Sample.first]⟩ ⟨[false], [false], [false]⟩
      ∧ (Sample.run Sample.versions (Sample.publish false false [])).phases false
        = .published ⟨Codec.textBytes "x", Sample.first, Sample.firstPointer, [Sample.first]⟩
          ⟨[false], [false], [false]⟩
      ∧ (Sample.run Sample.versions (Sample.publish false false [])).phases true = .start
      ∧ ∀ body ∈ (Sample.run Sample.versions Sample.successive).sent,
          ∀ request ∈ (deserialize body : Option StoreRequest),
            ∀ bs ∈ request.hashed, bs ∈ Sample.digests.map Prod.fst := by
    decide +kernel
  unfold Sample.run at h h' hbefore hstart hsent ⊢
  obtain ⟨-, hlater⟩ := history_suffix_of_common_node Sample.crypto (fun _ => some Sample.owner)
    "a" "p" Sample.versions Sample.successive (Sample.injOn_hashed hsent) false true h h' false
    List.mem_cons_self List.mem_cons_self
  exact ⟨_, _, _, _, h, h', List.mem_cons_self, List.mem_cons_self,
    hlater (Sample.publish false false []) _ rfl hbefore hstart⟩

end Kademlia
