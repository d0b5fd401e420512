import Kademlia.ValueLookup

/-!
# Where a value is stored

A value goes to the `K` nodes nearest to its key, found by a node lookup. A
lookup does not tell a peer that failed to answer from one that knows nobody:
both bring no contacts, and both keep their place among the candidates. The
routing table drops a peer that is gone; the lookup in progress does not.

What a lookup returns is therefore a matter of distance alone. Of the contacts
it asked, those are returned that have fewer than `K` of the ids heard of
nearer to the target, whatever became of the calls
(`asked_mem_lookupNode_iff`), and the same goes for the nodes a value is stored
on, with ourselves counted among the ids.

Nothing is asked here of the routing table the lookup starts from. Where its
answer repeats an id, the first contact with that id is the one that counts
(`runLookup_eq_distinct`), as replies are merged by the same rule.
-/

namespace Kademlia

namespace Rpc

variable {τ ν : Type} [CloseNodes τ] (rpc : Rpc τ ν)

/-- Which of the calls in flight completes next, and how. -/
def completion (method : Method) (body : List UInt8) (asked : List Contact)
    (world : World τ ν) : Option (Contact × Except ErrorKind (List UInt8)) :=
  let (i, outcome, _) := rpc.outside.settle world (asked.map (rpc.request method body))
  asked[i % asked.length]?.map (fun contact => (contact, outcome))

/-- The calls that complete in the loop of a lookup, in order. -/
def lookupCompletions (target : NodeId) : (rounds : ℕ) → LookupState → World τ ν →
    List (Contact × Except ErrorKind (List UInt8))
  | 0, _, _ => []
  | rounds + 1, st, world =>
    let st := st.fill (alpha - st.inFlight.length)
    match rpc.next .findNode ((serialize target).getD []) st.inFlight world with
    | none => []
    | some ((_, reply), inFlight, world') =>
      let contacts := nodesIn reply
      (rpc.completion .findNode ((serialize target).getD []) st.inFlight world).toList
        ++ lookupCompletions target rounds (st.absorb rpc.myContact.id target inFlight contacts)
          (offer (contacts.filter (fun c => c.id != rpc.myContact.id)) world')

/-- The calls that complete in a lookup, in order. -/
def completions (target : NodeId) (world : World τ ν) :
    List (Contact × Except ErrorKind (List UInt8)) :=
  rpc.lookupCompletions target (2 ^ idBits + 1) (startLookup target world) world

variable (crypto : Crypto)

/-- Ask a peer to store a value, and whether it acknowledged. -/
def storeWithProof (peer : Contact) (key : Key) (value : Value)
    (proof : List (Signed VersionRecord)) (world : World τ ν) : Bool × World τ ν :=
  match encodeRequestWithProof key value proof with
  | none => (false, world)
  | some body =>
    match rpc.next .store body [peer] world with
    | none => (false, world)
    | some ((_, reply), _, world) => (reply == some stored, world)

/-- Store a value on one node after another, counting acknowledgements. -/
def storeOn (key : Key) (value : Value) (proof : List (Signed VersionRecord)) :
    List Contact → ℕ → World τ ν → ℕ × World τ ν
  | [], accepted, world => (accepted, world)
  | target :: targets, accepted, world =>
    let (acknowledged, world) := rpc.storeWithProof target key value proof world
    storeOn key value proof targets (if acknowledged then accepted + 1 else accepted) world

/-- Store a value on the `K` nodes nearest to its key: the key, and how many
acknowledged. -/
def storeValueWithProof (value : Value) (proof : List (Signed VersionRecord))
    (world : World τ ν) : (Key × ℕ) × World τ ν :=
  let key := value.key crypto
  let (targets, world) := rpc.targets key world
  let (accepted, world) := rpc.storeOn key value proof targets 0 world
  ((key, accepted), world)

end Rpc

/-! ## Starting from a table that repeats ids

A routing table may answer with an id twice, under two addresses. The
candidates of a lookup are made distinct with every reply, but not at the
start. It makes no difference: nobody is asked twice by id, the first contact
of an id is the one that is asked, and the merge keeps the first. -/

/-- The state with repeated ids dropped from the candidates. -/
def LookupState.distinct (st : LookupState) : LookupState :=
  { st with candidates := Nearest.dedupBy sameId st.candidates }

/-- Calls are started alike. -/
theorem LookupState.fill_distinct (slots : ℕ) (st : LookupState) :
    st.distinct.fill slots = (st.fill slots).distinct := by
  induction slots generalizing st with
  | zero => rfl
  | succ slots ih =>
    have hfind : st.distinct.candidates.find? (fun c => !st.queried.contains c.id)
        = st.candidates.find? (fun c => !st.queried.contains c.id) := by
      refine Nearest.find?_dedupBy (fun a b hab => ?_) st.candidates
      rw [beq_iff_eq.mp hab]
    unfold LookupState.fill
    rw [show st.distinct.queried = st.queried from rfl, hfind]
    cases st.candidates.find? (fun c => !st.queried.contains c.id) with
    | none => rfl
    | some next => exact ih (st.start next)

/-- Replies are taken in alike. -/
theorem LookupState.absorb_distinct (st : LookupState) (myId target : NodeId)
    (inFlight contacts : List Contact) :
    st.distinct.absorb myId target inFlight contacts
      = st.absorb myId target inFlight contacts := by
  unfold LookupState.absorb LookupState.distinct
  dsimp only
  rw [Nearest.dedupBy_sortBy_append (nearerTo_eq target) (sameId_iff target)]

section Start

variable {τ ν : Type} [CloseNodes τ] {rpc : Rpc τ ν} {target : NodeId} {world : World τ ν}

/-- **A lookup runs as if its table had answered without repetitions.** The
first calls are started alike, since the next to ask is the first whose id was
not asked; and with the first reply the repetitions are gone. -/
theorem runLookup_eq_distinct :
    rpc.runLookup target world
      = rpc.lookupLoop target (2 ^ idBits + 1) (Rpc.startLookup target world).distinct world := by
  unfold Rpc.runLookup
  generalize hst : Rpc.startLookup target world = st
  have hqueried : st.queried = [] := by rw [← hst]; rfl
  have hflight : st.inFlight = [] := by rw [← hst]; rfl
  cases hcand : st.candidates with
  | nil =>
    have hsame : st.distinct = st := by
      unfold LookupState.distinct
      rw [hcand]
      show ({ st with candidates := [] } : LookupState) = st
      rw [← hcand]
    rw [hsame]
  | cons c l =>
    -- a call is started, and its reply is merged alike
    have hasked : (st.fill (alpha - st.inFlight.length)).inFlight ≠ [] := by
      rw [hflight]
      show (st.fill (2 + 1)).inFlight ≠ []
      unfold LookupState.fill
      rw [hcand, hqueried]
      exact LookupState.fill_inFlight_ne_nil 2
        (List.append_ne_nil_of_right_ne_nil _ (List.cons_ne_nil _ _))
    unfold Rpc.lookupLoop
    dsimp only
    rw [show st.distinct.inFlight = st.inFlight from rfl, LookupState.fill_distinct,
      show (st.fill (alpha - st.inFlight.length)).distinct.inFlight
        = (st.fill (alpha - st.inFlight.length)).inFlight from rfl]
    split
    · next hnone => exact absurd (Rpc.next_eq_none_iff.mp hnone) hasked
    · rw [LookupState.absorb_distinct]

/-- **It starts in order**, having heard of the contacts it starts with. -/
theorem startLookup_distinct_ok (target : NodeId) (world : World τ ν) (myId : NodeId) :
    (Rpc.startLookup target world).distinct.Ok (Rpc.startLookup target world).candidates myId
      target := by
  have hsorted : Nearest.sortBy (nearerTo target) (Rpc.startLookup target world).candidates
      = (Rpc.startLookup target world).candidates := by
    refine List.Pairwise.insertionSort_eq ?_
    exact ((Nearest.sortBy_sorted (nearerTo_eq target) _).sublist (List.take_sublist K _)).imp
      (fun {a b} h => (Nearest.isLE_iff (nearerTo_eq target) a b).mpr h)
  have hselects := Nearest.selects_dedupBy_sortBy_map (nearerTo_eq target) (sameId_iff target)
    Contact.id (d := fun i => distance i target) (fun _ => rfl) (distance_injective target) K
    (Rpc.startLookup target world).candidates
  have hfew : (Nearest.dedupBy sameId (Rpc.startLookup target world).candidates).length ≤ K :=
    (Nearest.dedupBy_sublist _ _).length_le.trans (List.length_take_le K _)
  rw [hsorted, List.take_of_length_le hfew] at hselects
  refine ⟨?_, rfl, List.nodup_nil, ?_, ?_, le_rfl⟩
  · refine Eq.subst (motive := fun S => Nearest.Selects _ K S _) ?_ hselects
    ext i
    show (∃ c ∈ (Rpc.startLookup target world).candidates, c.id = i) ↔ _ ∨ (∃ c ∈ [], _) ∧ _
    simp
  · exact fun c hc => absurd hc List.not_mem_nil
  · exact fun c _ hq => absurd hq List.not_mem_nil

/-- **Every lookup runs to its end in order.** -/
theorem runLookup_ok (rpc : Rpc τ ν) (target : NodeId) (world : World τ ν) :
    (rpc.runLookup target world).1.Ok (Rpc.startLookup target world).candidates
        rpc.myContact.id target
      ∧ (rpc.runLookup target world).1.Ended := by
  refine ⟨?_, runLookup_ended rpc target world⟩
  rw [runLookup_eq_distinct]
  exact lookupLoop_ok _ _ (startLookup_distinct_ok target world rpc.myContact.id)

end Start

/-! ## Who is returned

A lookup keeps on record whom it asked and what it heard. Before anything is
said in these terms, the record is compared with the calls that complete on the
network: it is about those and no others (`runLookup_recorded`). -/

section Returned

variable {τ ν : Type} [CloseNodes τ] {rpc : Rpc τ ν} {target : NodeId}

/-- Starting calls hears nothing. -/
theorem LookupState.fill_heard (slots : ℕ) (st : LookupState) :
    (st.fill slots).heard = st.heard := by
  induction slots generalizing st with
  | zero => rfl
  | succ slots ih =>
    unfold LookupState.fill
    split
    · rfl
    · next next _ => exact ih (st.start next)

/-- Starting calls keeps apart the calls that completed and those in flight: a call
that is started is one asked, and in flight. -/
theorem LookupState.fill_perm {done : List Contact} (slots : ℕ) {st : LookupState}
    (h : (done ++ st.inFlight).Perm st.probes) :
    (done ++ (st.fill slots).inFlight).Perm (st.fill slots).probes := by
  induction slots generalizing st with
  | zero => exact h
  | succ slots ih =>
    unfold LookupState.fill
    split
    · exact h
    · next next _ =>
      refine ih ?_
      show (done ++ (st.inFlight ++ [next])).Perm (st.probes ++ [next])
      rw [← List.append_assoc]
      exact h.append_right [next]

/-- What the loop takes for a reply is what became of the call. -/
theorem Rpc.completion_of_next {method : Method} {body : List UInt8} {asked rest : List Contact}
    {world world' : World τ ν} {contact : Contact} {reply : Option (List UInt8)}
    (h : rpc.next method body asked world = some ((contact, reply), rest, world')) :
    ∃ outcome, rpc.completion method body asked world = some (contact, outcome)
      ∧ reply = outcome.toOption := by
  unfold Rpc.next at h
  unfold Rpc.completion
  dsimp only at h ⊢
  split at h
  · cases h
  · next c hget =>
    cases h
    refine ⟨_, by rw [hget]; rfl, ?_⟩
    cases (rpc.outside.settle world (asked.map (rpc.request method body))).2.1 <;> rfl

/-- **The loop's own record is right.** Of whomever it asked, a call completed or is
still in flight, and nobody else's did; and what it heard is, in order, what there was
in the replies to the calls that completed. By induction on the rounds: starting a
call adds it to the calls asked and to those in flight, and a reply takes one of the
latter out. -/
theorem lookupLoop_recorded (rpc : Rpc τ ν) (target : NodeId) (rounds : ℕ) (st : LookupState)
    (world : World τ ν) (done : List Contact) (h : (done ++ st.inFlight).Perm st.probes) :
    (rpc.lookupLoop target rounds st world).1.heard
        = st.heard ++ (rpc.lookupCompletions target rounds st world).flatMap
          (fun p => Rpc.nodesIn p.2.toOption)
      ∧ (done ++ (rpc.lookupCompletions target rounds st world).map Prod.fst
          ++ (rpc.lookupLoop target rounds st world).1.inFlight).Perm
        (rpc.lookupLoop target rounds st world).1.probes := by
  induction rounds generalizing st world done with
  | zero =>
    refine ⟨(List.append_nil _).symm, ?_⟩
    show (done ++ [] ++ st.inFlight).Perm st.probes
    rw [List.append_nil]
    exact h
  | succ rounds ih =>
    have hfill := LookupState.fill_perm (alpha - st.inFlight.length) h
    have hheard := st.fill_heard (alpha - st.inFlight.length)
    unfold Rpc.lookupLoop Rpc.lookupCompletions
    dsimp only
    cases hnext : rpc.next .findNode ((serialize target).getD [])
        (st.fill (alpha - st.inFlight.length)).inFlight world with
    | none =>
      rw [List.flatMap_nil, List.map_nil, List.append_nil, List.append_nil]
      exact ⟨hheard, hfill⟩
    | some completed =>
      obtain ⟨⟨contact, reply⟩, rest, world'⟩ := completed
      obtain ⟨outcome, hcompletion, rfl⟩ := Rpc.completion_of_next hnext
      dsimp only
      rw [hcompletion]
      -- the call that completed is done, and the others are in flight still
      have hdone : ((done ++ [contact]) ++ rest).Perm
          (st.fill (alpha - st.inFlight.length)).probes := by
        rw [List.append_assoc]
        exact ((Rpc.next_perm hnext).append_left done).trans hfill
      obtain ⟨hheard', hperm⟩ := ih ((st.fill (alpha - st.inFlight.length)).absorb
        rpc.myContact.id target rest (Rpc.nodesIn outcome.toOption)) (Rpc.offer
          ((Rpc.nodesIn outcome.toOption).filter (fun c => c.id != rpc.myContact.id)) world')
        (done ++ [contact]) hdone
      refine ⟨?_, ?_⟩
      · rw [hheard']
        show (st.fill (alpha - st.inFlight.length)).heard ++ _ ++ _ = _
        rw [hheard, List.append_assoc]
        rfl
      · rw [List.append_assoc done] at hperm
        exact hperm

/-- **What a lookup has on record is what happened.** The contacts on record as asked
are, in some order, those whose calls completed, each once; and the contacts on record
as heard of are those in the replies, one reply after another. Nothing of this is up
to the record: which calls complete and how is read off the network (`completions`). -/
theorem runLookup_recorded (rpc : Rpc τ ν) (target : NodeId) (world : World τ ν) :
    (rpc.runLookup target world).1.heard
        = (rpc.completions target world).flatMap (fun p => Rpc.nodesIn p.2.toOption)
      ∧ ((rpc.completions target world).map Prod.fst).Perm
        (rpc.runLookup target world).1.probes := by
  obtain ⟨hheard, hperm⟩ := lookupLoop_recorded rpc target (2 ^ idBits + 1)
    (Rpc.startLookup target world) world [] (List.Perm.refl [])
  have hended : (rpc.lookupLoop target (2 ^ idBits + 1) (Rpc.startLookup target world)
      world).1.inFlight = [] := (runLookup_ended rpc target world).1
  rw [hended, List.append_nil, List.nil_append] at hperm
  exact ⟨hheard, hperm⟩

/-- What a lookup heard of: the contacts it started with, and those in replies,
except ourselves. -/
def Rpc.heardOf (rpc : Rpc τ ν) (target : NodeId) (world : World τ ν) : Set NodeId :=
  (rpc.runLookup target world).1.known (Rpc.startLookup target world).candidates rpc.myContact.id

/-- Of the contacts asked, one is returned where its id is. -/
theorem mem_lookupNode_iff {world : World τ ν} {c : Contact}
    (hc : c ∈ (rpc.runLookup target world).1.probes) :
    c ∈ (rpc.lookupNode target world).1
      ↔ c.id ∈ (rpc.lookupNode target world).1.map Contact.id := by
  obtain ⟨hok, hended⟩ := runLookup_ok rpc target world
  refine ⟨fun h => List.mem_map.mpr ⟨c, h, rfl⟩, fun h => ?_⟩
  obtain ⟨c', hc', hid⟩ := List.mem_map.mp h
  -- the candidate of this id was asked itself, and no id was asked twice
  have hasked := hok.asked c' hc' (hended.2 c' hc')
  exact List.inj_on_of_nodup_map hok.nodup hasked hc hid ▸ hc'

/-- The storage targets are the `K` nearest of what was heard of and
ourselves. -/
theorem selects_targets (rpc : Rpc τ ν) (target : NodeId) (world : World τ ν) :
    Nearest.Selects (fun i => distance i target) K
      (rpc.heardOf target world ∪ {rpc.myContact.id})
      ((rpc.targets target world).1.map Contact.id) := by
  have hmerge := Nearest.selects_dedupBy_sortBy_map (nearerTo_eq target) (sameId_iff target)
    Contact.id (d := fun i => distance i target) (fun _ => rfl) (distance_injective target) K
    ((rpc.lookupNode target world).1 ++ [rpc.myContact])
  have hset : {i | ∃ c ∈ (rpc.lookupNode target world).1 ++ [rpc.myContact], c.id = i}
      = {i | i ∈ (rpc.lookupNode target world).1.map Contact.id} ∪ {rpc.myContact.id} := by
    ext i
    show (∃ c ∈ (rpc.lookupNode target world).1 ++ [rpc.myContact], c.id = i) ↔
      i ∈ (rpc.lookupNode target world).1.map Contact.id ∨ i = rpc.myContact.id
    simp only [List.mem_append, List.mem_singleton, or_and_right, exists_or, List.mem_map,
      exists_eq_left, eq_comm]
  rw [hset] at hmerge
  exact (runLookup_ok rpc target world).1.selects.union hmerge

/-- Of the contacts asked, a value is stored on one where it is on its id. -/
theorem mem_targets_iff {world : World τ ν} {c : Contact}
    (hc : c ∈ (rpc.runLookup target world).1.probes) :
    c ∈ (rpc.targets target world).1
      ↔ c.id ∈ (rpc.targets target world).1.map Contact.id := by
  obtain ⟨hok, -⟩ := runLookup_ok rpc target world
  refine ⟨fun h => List.mem_map.mpr ⟨c, h, rfl⟩, fun h => ?_⟩
  -- what was asked and dropped is not a target: the `K` returned are nearer
  have hret : c.id ∈ (rpc.lookupNode target world).1.map Contact.id := by
    by_contra hnot
    obtain ⟨hfull, hlt⟩ := (hok.selects.least _ (hok.heard_of c hc)).resolve_left hnot
    exact lt_irrefl _ ((selects_targets rpc target world).lt_of_le_length hok.selects.nodup
      (fun i hi => ⟨Or.inl (hok.selects.subset i hi), hlt i hi⟩) hfull.ge h)
  obtain ⟨c', hc', hid⟩ := List.mem_map.mp h
  have hfirst : ((rpc.lookupNode target world).1 ++ [rpc.myContact]).find?
      (fun x => decide (distance x.id target = distance c'.id target)) = some c' :=
    Nearest.find?_of_mem_dedupBy_sortBy (nearerTo_eq target) (sameId_iff target)
      (List.mem_of_mem_take hc')
  rw [List.find?_append] at hfirst
  cases hfind : (rpc.lookupNode target world).1.find?
      (fun x => decide (distance x.id target = distance c'.id target)) with
  | none =>
    have hnone := List.find?_eq_none.mp hfind c ((mem_lookupNode_iff hc).mpr hret)
    exact absurd (by rw [hid]) (of_decide_eq_false (Bool.not_eq_true _ ▸ hnone))
  | some x =>
    rw [hfind] at hfirst
    obtain rfl : x = c' := Option.some.inj hfirst
    have hx := List.mem_of_find?_eq_some hfind
    exact List.inj_on_of_nodup_map hok.selects.nodup hx ((mem_lookupNode_iff hc).mpr hret) hid
      ▸ hc'

/-- **A lookup settles by distance alone.** A contact whose call completed,
with a reply or without one, is returned exactly if fewer than `K` of the ids
heard of are nearer to the target; and a value is stored on it exactly if fewer
than `K` are, counting ourselves.

How a call ended has no part in either condition. A peer that timed out has
been asked, and an id that was asked stays among the candidates as long as it
is near enough; so a dead peer takes the place of a live one that is farther
away (`lookupNode_returns_unanswered`). -/
theorem asked_mem_lookupNode_iff (rpc : Rpc τ ν) (target : NodeId) (world : World τ ν)
    (c : Contact) (outcome : Except ErrorKind (List UInt8))
    (hc : (c, outcome) ∈ rpc.completions target world) :
    (c ∈ (rpc.lookupNode target world).1
        ↔ {i ∈ rpc.heardOf target world | distance i target < distance c.id target}.encard < K)
      ∧ (c ∈ (rpc.targets target world).1
        ↔ {i ∈ rpc.heardOf target world ∪ {rpc.myContact.id} |
            distance i target < distance c.id target}.encard < K) := by
  obtain ⟨hok, -⟩ := runLookup_ok rpc target world
  have hprobe : c ∈ (rpc.runLookup target world).1.probes :=
    (runLookup_recorded rpc target world).2.subset (List.mem_map.mpr ⟨_, hc, rfl⟩)
  have hheard : c.id ∈ rpc.heardOf target world := hok.heard_of c hprobe
  refine ⟨?_, ?_⟩
  · rw [mem_lookupNode_iff hprobe]
    exact hok.selects.mem_iff_encard_lt hheard
  · rw [mem_targets_iff hprobe]
    exact (selects_targets rpc target world).mem_iff_encard_lt (Or.inl hheard)

end Returned

namespace Sample

/-- A network where the contact at port 8002 names one at port 8001, the one at
port 8001 does not answer, and everybody else knows nobody. Later calls
complete first. -/
def silent : Outside DumbBucket Unit where
  settle world requests :=
    (1, match (requests[1 % requests.length]?).map (fun r => r.peer) with
      | some peer =>
        if peer = (Sample.peer 1 8001).address then .error .timedOut
        else if peer = (Sample.peer 2 8002).address
        then .ok ((serialize [Sample.peer 1 8001]).getD [])
        else .ok ((serialize ([] : List Contact)).getD [])
      | none => .error .other, world)
  getDnsVk world _ := (none, world)

/-- A client of this network. -/
def lonely : Rpc DumbBucket Unit := ⟨peer 255 9000, silent⟩

/-- Ten contacts known, all of which answer. -/
def tenKnown : World DumbBucket Unit :=
  ⟨⟨[peer 2 8002, peer 3 8003, peer 4 8004, peer 5 8005, peer 6 8006, peer 7 8007, peer 8 8008,
    peer 9 8009, peer 10 8010, peer 11 8011]⟩, ()⟩

end Sample

/-- The contact that did not answer has nobody nearer. -/
theorem asked_mem_lookupNode_iff_sample :
    (Sample.peer 1 8001, .error .timedOut)
        ∈ Sample.lonely.completions (Sample.peer 0 0).id Sample.tenKnown
      ∧ {i ∈ Sample.lonely.heardOf (Sample.peer 0 0).id Sample.tenKnown |
          distance i (Sample.peer 0 0).id
            < distance (Sample.peer 1 8001).id (Sample.peer 0 0).id}.encard < K := by
  have hc : (Sample.peer 1 8001, .error .timedOut)
      ∈ Sample.lonely.completions (Sample.peer 0 0).id Sample.tenKnown := by decide +kernel
  exact ⟨hc, (asked_mem_lookupNode_iff _ _ _ _ _ hc).1.mp (by decide +kernel)⟩

/-- **A lookup returns a contact that did not answer**, in the place of one that
did, although the routing table has dropped it; and a value is stored on it. -/
theorem lookupNode_returns_unanswered :
    ∃ c c' reply, (c, .error .timedOut)
          ∈ Sample.lonely.completions (Sample.peer 0 0).id Sample.tenKnown
      ∧ (c', .ok reply) ∈ Sample.lonely.completions (Sample.peer 0 0).id Sample.tenKnown
      ∧ c ∈ (Sample.lonely.lookupNode (Sample.peer 0 0).id Sample.tenKnown).1
      ∧ c' ∉ (Sample.lonely.lookupNode (Sample.peer 0 0).id Sample.tenKnown).1
      ∧ c ∈ (Sample.lonely.targets (Sample.peer 0 0).id Sample.tenKnown).1
      ∧ c ∉ (Sample.lonely.lookupNode (Sample.peer 0 0).id Sample.tenKnown).2.table.contacts :=
  ⟨Sample.peer 1 8001, Sample.peer 11 8011, (serialize ([] : List Contact)).getD [],
    by decide +kernel⟩

end Kademlia
