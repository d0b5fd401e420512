import Kademlia.Rpc

/-!
# Iterative node lookup

A lookup keeps the `K` nearest contacts it has heard of, asks the nearest it
has not asked yet, `alpha` at a time, and stops when all of them have been
asked and no call is in flight. Peers answer with any contacts, in any order
of completion, or not at all.

The list is truncated after every reply, while other calls are in flight.
Nothing that belongs to the result is lost by that: at every moment the
candidates are the `K` nearest of everything heard so far
(`LookupState.Ok`), and what a truncation drops stays out, as what is heard
only grows. So an id that was asked and dropped does not come back under
another address, every candidate at the end was asked itself, and no id was
asked twice.

The loop is given one round more than there are ids. That is enough
(`lookupLoop_ended`): every round takes a reply, and no id is asked twice.
-/

namespace Kademlia

/-- How many calls a lookup keeps in flight. -/
def alpha : ℕ := 3

/-- The state of a node lookup. The last two fields are not part of the
program: they record whom it asked and what it heard. -/
structure LookupState where
  /-- The nearest contacts known, nearest first. -/
  candidates : List Contact
  /-- The ids asked so far. -/
  queried : List NodeId
  /-- The contacts with a call in flight. -/
  inFlight : List Contact
  /-- The contacts asked, in order. -/
  probes : List Contact
  /-- The contacts in the replies received. -/
  heard : List Contact

namespace LookupState

/-- Start a call to a contact. -/
def start (st : LookupState) (next : Contact) : LookupState :=
  { st with
    queried := st.queried ++ [next.id]
    inFlight := st.inFlight ++ [next]
    probes := st.probes ++ [next] }

/-- Start calls, nearest first, until `slots` are started or every candidate
was asked. -/
def fill : (slots : ℕ) → LookupState → LookupState
  | 0, st => st
  | slots + 1, st =>
    match st.candidates.find? (fun contact => !st.queried.contains contact.id) with
    | none => st
    | some next => fill slots (st.start next)

/-- Take in the contacts of a reply: all but ourselves are merged with the
candidates, sorted by distance, made distinct, and cut to `K`. -/
def absorb (st : LookupState) (myId target : NodeId) (inFlight contacts : List Contact) :
    LookupState :=
  let new := contacts.filter (fun c => c.id != myId)
  { st with
    candidates := (Nearest.dedupBy sameId
      (Nearest.sortBy (nearerTo target) (st.candidates ++ new))).take K
    inFlight := inFlight
    heard := st.heard ++ contacts }

end LookupState

namespace Rpc

variable {τ ν : Type} [CloseNodes τ] (rpc : Rpc τ ν)

/-- The loop of a lookup: fill the pipeline, wait for a reply, take it in. -/
def lookupLoop (target : NodeId) : (rounds : ℕ) → LookupState → World τ ν →
    LookupState × World τ ν
  | 0, st, world => (st, world)
  | rounds + 1, st, world =>
    let st := st.fill (alpha - st.inFlight.length)
    match rpc.next .findNode ((serialize target).getD []) st.inFlight world with
    | none => (st, world)
    | some ((_, reply), inFlight, world) =>
      -- a call that failed and a reply that does not decode bring nobody
      let contacts := nodesIn reply
      lookupLoop target rounds (st.absorb rpc.myContact.id target inFlight contacts)
        (offer (contacts.filter (fun c => c.id != rpc.myContact.id)) world)

/-- A lookup starts with the nearest contacts of the routing table. -/
def startLookup (target : NodeId) (world : World τ ν) : LookupState :=
  ⟨(Nearest.sortBy (nearerTo target) (CloseNodes.closeNodes world.table target)).take K,
    [], [], [], []⟩

/-- A lookup to its end, with the record of what it did. -/
def runLookup (target : NodeId) (world : World τ ν) : LookupState × World τ ν :=
  rpc.lookupLoop target (2 ^ idBits + 1) (startLookup target world) world

/-- The `K` nearest nodes to a target that the network knows of. -/
def lookupNode (target : NodeId) (world : World τ ν) : List Contact × World τ ν :=
  let (st, world) := rpc.runLookup target world
  (st.candidates, world)

end Rpc

/-! ## What holds throughout a lookup

Everything said about results of lookups is said about states that are in
order, and every state a lookup comes to is. The one clause that does not look
like an invariant of a search is the last but one: a candidate whose id was
asked was asked itself, and not another contact of the same id. A reply may
name a node under a new address, and the merge keeps the first contact of an
id, which is the one already there. -/

/-- The ids a lookup has heard of: those it started with, and those in
replies, except our own. -/
def LookupState.known (initial : List Contact) (myId : NodeId) (st : LookupState) : Set NodeId :=
  {i | (∃ c ∈ initial, c.id = i) ∨ ((∃ c ∈ st.heard, c.id = i) ∧ i ≠ myId)}

/-- **The state of a lookup in order.** -/
structure LookupState.Ok (initial : List Contact) (myId target : NodeId) (st : LookupState) :
    Prop where
  /-- The candidates are the `K` nearest of what was heard of. -/
  selects : Nearest.Selects (fun i => distance i target) K (st.known initial myId)
    (st.candidates.map Contact.id)
  /-- The ids asked are those of the contacts asked. -/
  queried_eq : st.queried = st.probes.map Contact.id
  /-- No id was asked twice. -/
  nodup : (st.probes.map Contact.id).Nodup
  /-- Whoever was asked had been heard of. -/
  heard_of : ∀ c ∈ st.probes, c.id ∈ st.known initial myId
  /-- A candidate whose id was asked was asked itself. -/
  asked : ∀ c ∈ st.candidates, c.id ∈ st.queried → c ∈ st.probes
  /-- A call in flight is to someone asked. -/
  inFlight_le : st.inFlight.length ≤ st.probes.length

section Step

variable {initial : List Contact} {myId target : NodeId} {st : LookupState}

/-- Asking a candidate that was not asked keeps the state in order. -/
theorem LookupState.Ok.start (h : st.Ok initial myId target) {next : Contact}
    (hmem : next ∈ st.candidates) (hnew : next.id ∉ st.queried) :
    (st.start next).Ok initial myId target := by
  have hids : (st.candidates.map Contact.id).Nodup := h.selects.nodup
  refine ⟨h.selects, ?_, ?_, fun c hc => ?_, fun c hc hq => ?_, ?_⟩
  · show st.queried ++ [next.id] = (st.probes ++ [next]).map Contact.id
    rw [h.queried_eq, List.map_append, List.map_singleton]
  · show ((st.probes ++ [next]).map Contact.id).Nodup
    rw [List.map_append, List.map_singleton, ← h.queried_eq]
    refine List.nodup_append.mpr ⟨h.queried_eq ▸ h.nodup, List.nodup_singleton _, ?_⟩
    rintro a ha b hb rfl
    exact hnew (List.mem_singleton.mp hb ▸ ha)
  · rcases List.mem_append.mp hc with hc | hc
    · exact h.heard_of c hc
    · rw [List.mem_singleton.mp hc]
      exact h.selects.subset _ (List.mem_map.mpr ⟨next, hmem, rfl⟩)
  · rcases List.mem_append.mp hq with hq | hq
    · exact List.mem_append_left _ (h.asked c hc hq)
    · -- the candidate with this id is the one asked now
      have heq := List.inj_on_of_nodup_map hids hc hmem (List.mem_singleton.mp hq)
      exact List.mem_append_right _ (heq ▸ List.mem_singleton.mpr rfl)
  · show (st.inFlight ++ [next]).length ≤ (st.probes ++ [next]).length
    rw [List.length_append, List.length_append]
    exact Nat.add_le_add_right h.inFlight_le _

/-- **Starting calls keeps the state in order.** -/
theorem LookupState.Ok.fill (h : st.Ok initial myId target) (slots : ℕ) :
    (st.fill slots).Ok initial myId target := by
  induction slots generalizing st with
  | zero => exact h
  | succ slots ih =>
    unfold LookupState.fill
    split
    · exact h
    · next next hfind =>
      exact ih (h.start (List.mem_of_find?_eq_some hfind) (by simpa using List.find?_some hfind))

/-- Starting calls leaves the number of calls completed as it is, and starts
no more than there are slots. -/
theorem LookupState.fill_lengths (slots : ℕ) (st : LookupState) :
    (st.fill slots).probes.length - (st.fill slots).inFlight.length
        = st.probes.length - st.inFlight.length
      ∧ (st.fill slots).inFlight.length ≤ st.inFlight.length + slots := by
  induction slots generalizing st with
  | zero => exact ⟨rfl, le_rfl⟩
  | succ slots ih =>
    unfold LookupState.fill
    split
    · exact ⟨rfl, Nat.le_add_right _ _⟩
    · next next hfind =>
      obtain ⟨hlen, hle⟩ := ih (st.start next)
      have hprobes : (st.start next).probes.length = st.probes.length + 1 :=
        List.length_append
      have hflight : (st.start next).inFlight.length = st.inFlight.length + 1 :=
        List.length_append
      exact ⟨by omega, by omega⟩

/-- Starting calls keeps the ones in flight. -/
theorem LookupState.fill_inFlight_ne_nil (slots : ℕ) (h : st.inFlight ≠ []) :
    (st.fill slots).inFlight ≠ [] := by
  induction slots generalizing st with
  | zero => exact h
  | succ slots ih =>
    unfold LookupState.fill
    split
    · exact h
    · exact ih (List.append_ne_nil_of_right_ne_nil _ (List.cons_ne_nil _ _))

/-- With a slot to fill, the pipeline is empty only when every candidate was
asked. -/
theorem LookupState.asked_of_fill_empty {slots : ℕ} (hslots : 0 < slots)
    (hempty : (st.fill slots).inFlight = []) :
    ∀ c ∈ (st.fill slots).candidates, c.id ∈ (st.fill slots).queried := by
  obtain ⟨n, rfl⟩ : ∃ n, slots = n + 1 := ⟨slots - 1, by omega⟩
  unfold LookupState.fill at hempty ⊢
  split at hempty
  · next hfind =>
    intro c hc
    simpa using List.find?_eq_none.mp hfind c hc
  · exact absurd hempty (fill_inFlight_ne_nil n
      (List.append_ne_nil_of_right_ne_nil _ (List.cons_ne_nil _ _)))

/-- What a lookup has heard of after a reply. -/
theorem LookupState.known_absorb (inFlight contacts : List Contact) :
    (st.absorb myId target inFlight contacts).known initial myId
      = st.known initial myId
        ∪ {i | ∃ c ∈ contacts.filter (fun c => c.id != myId), c.id = i} := by
  ext i
  show ((∃ c ∈ initial, c.id = i) ∨ ((∃ c ∈ st.heard ++ contacts, c.id = i) ∧ i ≠ myId)) ↔
    ((∃ c ∈ initial, c.id = i) ∨ ((∃ c ∈ st.heard, c.id = i) ∧ i ≠ myId))
      ∨ ∃ c ∈ contacts.filter (fun c => c.id != myId), c.id = i
  simp only [List.mem_append, List.mem_filter, bne_iff_ne, or_and_right, exists_or, or_assoc]
  refine or_congr_right (or_congr_right ⟨?_, ?_⟩)
  · rintro ⟨⟨c, hc, rfl⟩, hne⟩
    exact ⟨c, ⟨hc, hne⟩, rfl⟩
  · rintro ⟨c, ⟨hc, hne⟩, rfl⟩
    exact ⟨⟨c, hc, rfl⟩, hne⟩

/-- **Truncating after a reply loses nothing**: the candidates are the `K`
nearest of what was heard of, the reply included. The candidates before were a
selection, and selecting in stages is selecting at once. -/
theorem LookupState.Ok.selects_absorb (h : st.Ok initial myId target)
    (inFlight contacts : List Contact) :
    Nearest.Selects (fun i => distance i target) K
      ((st.absorb myId target inFlight contacts).known initial myId)
      ((st.absorb myId target inFlight contacts).candidates.map Contact.id) := by
  have hmerge := Nearest.selects_dedupBy_sortBy_map (nearerTo_eq target) (sameId_iff target)
    Contact.id (d := fun i => distance i target) (fun _ => rfl) (distance_injective target) K
    (st.candidates ++ contacts.filter (fun c => c.id != myId))
  have hset : {i | ∃ c ∈ st.candidates ++ contacts.filter (fun c => c.id != myId), c.id = i}
      = {i | i ∈ st.candidates.map Contact.id}
        ∪ {i | ∃ c ∈ contacts.filter (fun c => c.id != myId), c.id = i} := by
    ext i
    show (∃ c ∈ st.candidates ++ contacts.filter (fun c => c.id != myId), c.id = i) ↔
      i ∈ st.candidates.map Contact.id ∨ _
    simp only [List.mem_append, or_and_right, exists_or, List.mem_map]
    rfl
  rw [hset] at hmerge
  rw [known_absorb]
  exact h.selects.union hmerge

/-- **What a truncation dropped stays out**: a candidate after a reply whose id
was asked before is the candidate it was. An id that was heard of and dropped
had `K` nearer ones before it, and these have been heard of ever since; an id
that is still there keeps its first contact. -/
theorem LookupState.Ok.mem_of_mem_absorb (h : st.Ok initial myId target)
    {inFlight contacts : List Contact} {c : Contact}
    (hc : c ∈ (st.absorb myId target inFlight contacts).candidates) (hq : c.id ∈ st.queried) :
    c ∈ st.candidates := by
  have hold : c.id ∈ st.candidates.map Contact.id := by
    by_contra hnot
    have hheard : c.id ∈ st.known initial myId := by
      have hq' : c.id ∈ st.probes.map Contact.id := h.queried_eq ▸ hq
      obtain ⟨p, hp, hpc⟩ := List.mem_map.mp hq'
      exact hpc ▸ h.heard_of p hp
    -- the `K` candidates that kept it out are still known, and nearer
    obtain ⟨hfull, hlt⟩ := (h.selects.least _ hheard).resolve_left hnot
    refine lt_irrefl _ ((h.selects_absorb inFlight contacts).lt_of_le_length h.selects.nodup
      (fun i hi => ⟨?_, hlt i hi⟩) hfull.ge (List.mem_map.mpr ⟨c, hc, rfl⟩))
    rw [known_absorb]
    exact Or.inl (h.selects.subset i hi)
  obtain ⟨c', hc', hid⟩ := List.mem_map.mp hold
  have hfirst := Nearest.find?_of_mem_dedupBy_sortBy (nearerTo_eq target) (sameId_iff target)
    (List.mem_of_mem_take hc)
  rw [List.find?_append] at hfirst
  cases hfind : st.candidates.find?
      (fun x => decide (distance x.id target = distance c.id target)) with
  | none => exact absurd (List.find?_eq_none.mp hfind c' hc') (by simp [hid])
  | some x =>
    rw [hfind] at hfirst
    obtain rfl : x = c := Option.some.inj hfirst
    exact List.mem_of_find?_eq_some hfind

/-- **Taking in a reply keeps the state in order.** -/
theorem LookupState.Ok.absorb (h : st.Ok initial myId target) {inFlight : List Contact}
    (hle : inFlight.length ≤ st.probes.length) (contacts : List Contact) :
    (st.absorb myId target inFlight contacts).Ok initial myId target := by
  refine ⟨h.selects_absorb inFlight contacts, h.queried_eq, h.nodup, fun c hc => ?_,
    fun c hc hq => h.asked c (h.mem_of_mem_absorb hc hq) hq, hle⟩
  rw [LookupState.known_absorb]
  exact Or.inl (h.heard_of c hc)

end Step

/-! ## Steps

A step asks one contact or takes one reply. Peers may answer with contacts
ever nearer to the target, so neither the candidates nor their distances
bound a lookup. What does is that no id is asked twice: the ids not asked
and the calls in flight, in this order, go down with every step. -/

/-- A lookup that is over: no call is in flight, and every candidate was
asked. -/
def LookupState.Ended (st : LookupState) : Prop :=
  st.inFlight = [] ∧ ∀ c ∈ st.candidates, c.id ∈ st.queried

/-- The nearest candidate that was not asked. -/
def LookupState.nextUnasked (st : LookupState) : Option Contact :=
  st.candidates.find? (fun contact => !st.queried.contains contact.id)

/-- **One step of a lookup**, whatever the peers do. -/
inductive LookupState.Step (myId target : NodeId) : LookupState → LookupState → Prop
  /-- With a slot free, the nearest candidate that was not asked is asked. -/
  | send {st : LookupState} {next : Contact} (hslot : st.inFlight.length < alpha)
      (hnext : st.nextUnasked = some next) : Step myId target st (st.start next)
  /-- With nobody to ask or no slot free, any of the calls in flight completes,
  with any contacts. -/
  | complete {st : LookupState} {asked : Contact} {rest : List Contact} (contacts : List Contact)
      (hwait : st.inFlight.length < alpha → st.nextUnasked = none)
      (hdone : (asked :: rest).Perm st.inFlight) :
      Step myId target st (st.absorb myId target rest contacts)

theorem LookupState.nextUnasked_eq_none_iff {st : LookupState} :
    st.nextUnasked = none ↔ ∀ c ∈ st.candidates, c.id ∈ st.queried := by
  simp [nextUnasked, List.find?_eq_none]

theorem LookupState.nextUnasked_eq_some {st : LookupState} {next : Contact}
    (h : st.nextUnasked = some next) : next ∈ st.candidates ∧ next.id ∉ st.queried :=
  ⟨List.mem_of_find?_eq_some h, by simpa using List.find?_some h⟩

/-- How many ids were not asked. -/
noncomputable def LookupState.unasked (st : LookupState) : ℕ := {id | id ∉ st.queried}.ncard

/-- The ids not asked, then the calls in flight. -/
noncomputable def LookupState.rank (st : LookupState) : ℕ ×ₗ ℕ :=
  toLex (st.unasked, st.inFlight.length)

instance : Finite NodeId := Finite.of_injective
  (fun id => (⟨Bytes.value id.toList, value_lt id⟩ : Fin (2 ^ idBits)))
  (fun a b hab => List.Vector.eq a b (Bytes.eq_of_value_eq
    (by rw [a.toList_length, b.toList_length]) (Fin.val_eq_of_eq hab)))

namespace LookupState

variable {myId target : NodeId} {st st' : LookupState}

/-- **Every step goes down**, from any state. Asking somebody takes an id out
of those not asked. Taking a reply asks nobody, and takes a call out of those
in flight. -/
theorem Step.rank_lt (h : Step myId target st st') : st'.rank < st.rank := by
  rw [rank, rank, Prod.Lex.toLex_lt_toLex]
  cases h with
  | send hslot hnext =>
    obtain ⟨-, hnew⟩ := nextUnasked_eq_some hnext
    refine Or.inl (Set.ncard_lt_ncard ⟨fun id hid hold => ?_, fun hsub => ?_⟩)
    · exact hid (List.mem_append_left _ hold)
    · exact hsub hnew (List.mem_append_right _ (List.mem_singleton.mpr rfl))
  | complete contacts hwait hdone =>
    refine Or.inr ⟨rfl, ?_⟩
    show _ < st.inFlight.length
    rw [← hdone.length_eq]
    exact Nat.lt_succ_self _

/-- **No lookup goes on for ever.** -/
theorem wellFounded_step (myId target : NodeId) :
    WellFounded (fun st' st => Step myId target st st') :=
  Subrelation.wf (fun {_ _} h => h.rank_lt) (InvImage.wf rank wellFounded_lt)

/-- **A lookup is stuck exactly when it is over.** While a candidate is left to
ask or a call is in flight there is a step to take: with a slot free somebody
can be asked, and with none a call can complete. -/
theorem stuck_iff_ended : (∀ st', ¬ Step myId target st st') ↔ st.Ended := by
  constructor
  · intro hstuck
    have hwait : st.inFlight.length < alpha → st.nextUnasked = none := by
      intro hslot
      cases hnext : st.nextUnasked with
      | none => rfl
      | some next => exact absurd (Step.send hslot hnext) (hstuck _)
    have hempty : st.inFlight = [] := by
      cases hflight : st.inFlight with
      | nil => rfl
      | cons asked rest =>
        exact absurd (Step.complete [] hwait (List.Perm.of_eq hflight.symm)) (hstuck _)
    exact ⟨hempty, nextUnasked_eq_none_iff.mp (hwait (by rw [hempty]; decide))⟩
  · rintro ⟨hempty, hasked⟩ st' hstep
    cases hstep with
    | send hslot hnext =>
      obtain ⟨hmem, hnew⟩ := nextUnasked_eq_some hnext
      exact hnew (hasked _ hmem)
    | complete contacts hwait hdone =>
      rw [hempty] at hdone
      exact absurd hdone.eq_nil (List.cons_ne_nil _ _)

/-- **How a lookup paces its calls**: nobody is asked twice, and no more than
`alpha` calls are in flight. -/
structure Paced (st : LookupState) : Prop where
  /-- The ids asked are those of the contacts asked. -/
  queried_eq : st.queried = st.probes.map Contact.id
  /-- No id was asked twice. -/
  nodup : (st.probes.map Contact.id).Nodup
  /-- A call in flight is to someone asked. -/
  inFlight_le : st.inFlight.length ≤ st.probes.length
  /-- The pipeline is not overfull. -/
  inFlight_le_alpha : st.inFlight.length ≤ alpha

/-- **Every step keeps the pace.** -/
theorem Paced.step (h : st.Paced) (hstep : Step myId target st st') : st'.Paced := by
  cases hstep with
  | @send next hslot hnext =>
    obtain ⟨-, hnew⟩ := nextUnasked_eq_some hnext
    have hlen : (st.start next).inFlight.length = st.inFlight.length + 1 := List.length_append
    have hlen' : (st.start next).probes.length = st.probes.length + 1 := List.length_append
    have hle := h.inFlight_le
    refine ⟨?_, ?_, by omega, by omega⟩
    · show st.queried ++ [next.id] = (st.probes ++ [next]).map Contact.id
      rw [h.queried_eq, List.map_append, List.map_singleton]
    · show ((st.probes ++ [next]).map Contact.id).Nodup
      rw [List.map_append, List.map_singleton]
      exact h.nodup.append (List.nodup_singleton _)
        (List.disjoint_singleton.mpr (h.queried_eq ▸ hnew))
  | @complete asked rest contacts hwait hdone =>
    have hlen : rest.length ≤ st.inFlight.length := by
      rw [← hdone.length_eq]
      exact Nat.le_succ _
    exact ⟨h.queried_eq, h.nodup, hlen.trans h.inFlight_le, hlen.trans h.inFlight_le_alpha⟩

theorem Paced.steps (h : st.Paced) (hsteps : Relation.ReflTransGen (Step myId target) st st') :
    st'.Paced := by
  induction hsteps with
  | refl => exact h
  | tail _ hstep ih => exact ih.step hstep

/-- Starting calls takes steps, as long as there are slots. -/
theorem fill_steps (slots : ℕ) (hslots : st.inFlight.length + slots ≤ alpha) :
    Relation.ReflTransGen (Step myId target) st (st.fill slots) := by
  induction slots generalizing st with
  | zero => exact .refl
  | succ slots ih =>
    unfold fill
    split
    · exact .refl
    · next next hnext =>
      refine .head (.send (by omega) hnext) (ih ?_)
      show (st.inFlight ++ [next]).length + slots ≤ alpha
      rw [List.length_append, List.length_singleton]
      omega

/-- Starting calls fills the slots, or finds nobody to ask. -/
theorem fill_waits (slots : ℕ) (h : (st.fill slots).inFlight.length < st.inFlight.length + slots) :
    (st.fill slots).nextUnasked = none := by
  induction slots generalizing st with
  | zero => exact absurd h (lt_irrefl _)
  | succ slots ih =>
    unfold fill at h ⊢
    split at h
    · next hnone => exact hnone
    · next next hnext =>
      refine ih (h.trans_le ?_)
      show _ ≤ (st.inFlight ++ [next]).length + slots
      rw [List.length_append, List.length_singleton]
      omega

end LookupState

/-! ## Whole lookups

The loop of the program starts several calls at once and then waits for one
reply. In steps these are some that ask and one that completes, so the loop is
one of the runs that the steps allow, and what holds of all of them holds of
it. -/

section Run

variable {τ ν : Type} [CloseNodes τ] {rpc : Rpc τ ν} {initial : List Contact} {target : NodeId}

/-- **The loop keeps the state in order**, round by round: calls are started,
and one reply is taken in. -/
theorem lookupLoop_ok (rounds : ℕ) {st : LookupState} (world : World τ ν)
    (h : st.Ok initial rpc.myContact.id target) :
    (rpc.lookupLoop target rounds st world).1.Ok initial rpc.myContact.id target := by
  induction rounds generalizing st world with
  | zero => exact h
  | succ rounds ih =>
    have hok := h.fill (alpha - st.inFlight.length)
    unfold Rpc.lookupLoop
    dsimp only
    split
    · exact hok
    · next inFlight world' hnext =>
      obtain ⟨-, hlen, -⟩ := Rpc.next_eq_some hnext
      exact ih _ (hok.absorb (by have := hok.inFlight_le; omega) _)

/-- Ids that differ are no more than there are. -/
theorem length_le_of_nodup {ids : List NodeId} (h : ids.Nodup) : ids.length ≤ 2 ^ idBits := by
  have hvalues : (ids.map (fun i => Bytes.value i.toList)).Nodup :=
    h.map (fun a b hab => List.Vector.eq a b
      (Bytes.eq_of_value_eq (by rw [a.toList_length, b.toList_length]) hab))
  have hsub : ids.map (fun i => Bytes.value i.toList) ⊆ List.range (2 ^ idBits) := by
    intro n hn
    obtain ⟨i, -, rfl⟩ := List.mem_map.mp hn
    exact List.mem_range.mpr (value_lt i)
  have hlen := (hvalues.subperm hsub).length_le
  rwa [List.length_map, List.length_range] at hlen

/-- What a round of the loop does, in steps. -/
theorem lookupLoop_round {st : LookupState} {world world' : World τ ν} {contact : Contact}
    {reply : Option (List UInt8)} {inFlight : List Contact} (myId : NodeId)
    (h : st.inFlight.length ≤ alpha)
    (hnext : rpc.next .findNode ((serialize target).getD [])
        (st.fill (alpha - st.inFlight.length)).inFlight world
      = some ((contact, reply), inFlight, world')) (contacts : List Contact) :
    Relation.ReflTransGen (LookupState.Step myId target) st
      ((st.fill (alpha - st.inFlight.length)).absorb myId target inFlight contacts) :=
  .tail (st.fill_steps _ (by omega))
    (.complete contacts (fun hlt => st.fill_waits _ (by omega)) (Rpc.next_perm hnext))

/-- **The loop takes steps.** -/
theorem lookupLoop_steps (rounds : ℕ) {st : LookupState} (world : World τ ν)
    (h : st.inFlight.length ≤ alpha) :
    Relation.ReflTransGen (LookupState.Step rpc.myContact.id target) st
      (rpc.lookupLoop target rounds st world).1 := by
  induction rounds generalizing st world with
  | zero => exact .refl
  | succ rounds ih =>
    unfold Rpc.lookupLoop
    dsimp only
    split
    · exact st.fill_steps _ (by omega)
    · next inFlight world' hnext =>
      obtain ⟨-, hlen, -⟩ := Rpc.next_eq_some hnext
      refine (lookupLoop_round _ h hnext _).trans (ih _ ?_)
      have := (st.fill_lengths (alpha - st.inFlight.length)).2
      show inFlight.length ≤ alpha
      omega

/-- **The loop comes to its end**: each round takes one reply, and there are no
more replies than ids. So the number of rounds it is given, one more than there
are ids, is never what stops it. -/
theorem lookupLoop_ended (rounds : ℕ) {st : LookupState} (world : World τ ν) (h : st.Paced)
    (hflight : st.inFlight.length < alpha)
    (hrounds : 2 ^ idBits < rounds + (st.probes.length - st.inFlight.length)) :
    (rpc.lookupLoop target rounds st world).1.Ended := by
  -- the replies taken so far and the rounds left are more than there are ids
  induction rounds generalizing st world with
  | zero =>
    have hle := length_le_of_nodup h.nodup
    rw [List.length_map] at hle
    omega
  | succ rounds ih =>
    obtain ⟨hdone, hfull⟩ := st.fill_lengths (alpha - st.inFlight.length)
    unfold Rpc.lookupLoop
    dsimp only
    split
    · next hnone =>
      have hempty := Rpc.next_eq_none_iff.mp hnone
      exact ⟨hempty, LookupState.asked_of_fill_empty (by omega) hempty⟩
    · next inFlight world' hnext =>
      obtain ⟨-, hlen, -⟩ := Rpc.next_eq_some hnext
      have hfill : Relation.ReflTransGen (LookupState.Step rpc.myContact.id target) st
          (st.fill (alpha - st.inFlight.length)) := st.fill_steps _ (by omega)
      have hle := (h.steps hfill).inFlight_le
      refine ih _ (h.steps (lookupLoop_round _ hflight.le hnext _)) ?_ ?_
      · show inFlight.length < alpha
        omega
      · show 2 ^ idBits < rounds + ((st.fill _).probes.length - inFlight.length)
        omega

theorem startLookup_paced (target : NodeId) (world : World τ ν) :
    (Rpc.startLookup target world).Paced :=
  ⟨rfl, List.nodup_nil, le_rfl, Nat.zero_le alpha⟩

/-- **Every lookup runs to its end.** -/
theorem runLookup_ended (rpc : Rpc τ ν) (target : NodeId) (world : World τ ν) :
    (rpc.runLookup target world).1.Ended :=
  lookupLoop_ended _ _ (startLookup_paced target world) (Nat.succ_pos 2)
    ((Nat.lt_succ_self _).trans_le (Nat.le_add_right _ _))

/-- **A node lookup ends against any peers**, from any table. Whatever they
answer and in whatever order calls complete, each step brings the ids not asked
and the calls in flight down, nobody is asked twice, no more than `alpha` calls
are in flight, and a run that cannot go on is over. The loop is such a run.

Peers can make a lookup long, by naming ever more ids that are ever nearer;
what they cannot do is make it ask an id twice, and there are finitely many.
The order is lexicographic, since asking somebody puts a call in flight. The
last two clauses say that the program's loop does not stop for want of rounds:
it ends in a state where no call is in flight and every candidate was asked. -/
theorem lookupNode_terminates (rpc : Rpc τ ν) (target : NodeId) (world : World τ ν) :
    (∀ st st', LookupState.Step rpc.myContact.id target st st' → st'.rank < st.rank)
      ∧ WellFounded (fun st' st => LookupState.Step rpc.myContact.id target st st')
      ∧ (∀ st, Relation.ReflTransGen (LookupState.Step rpc.myContact.id target)
            (Rpc.startLookup target world) st →
          (st.probes.map Contact.id).Nodup ∧ st.inFlight.length ≤ alpha
            ∧ ((∀ st', ¬ LookupState.Step rpc.myContact.id target st st') ↔ st.Ended))
      ∧ Relation.ReflTransGen (LookupState.Step rpc.myContact.id target)
          (Rpc.startLookup target world) (rpc.runLookup target world).1
      ∧ (rpc.runLookup target world).1.Ended := by
  refine ⟨fun st st' h => h.rank_lt, LookupState.wellFounded_step _ _, fun st hst => ?_,
    lookupLoop_steps _ _ (Nat.zero_le alpha), runLookup_ended rpc target world⟩
  have hpaced := (startLookup_paced target world).steps hst
  exact ⟨hpaced.nodup, hpaced.inFlight_le_alpha, LookupState.stuck_iff_ended⟩

/-- **A lookup starts in order**, where the table answers with distinct
ids. -/
theorem startLookup_ok {world : World τ ν}
    (hids : ((CloseNodes.closeNodes world.table target).map Contact.id).Nodup) (myId : NodeId) :
    (Rpc.startLookup target world).Ok (CloseNodes.closeNodes world.table target) myId target := by
  have hselects := (Nearest.selects_sortBy (nearerTo_eq target) K
    ((List.pairwise_map.mp hids).imp (fun hab he => hab (distance_injective target he)))).map
    Contact.id (d := fun i => distance i target) (fun _ => rfl)
  refine ⟨?_, rfl, List.nodup_nil, ?_, ?_, le_rfl⟩
  · refine Eq.subst (motive := fun S => Nearest.Selects _ K S _) ?_ hselects
    ext i
    show (∃ c ∈ CloseNodes.closeNodes world.table target, c.id = i) ↔ _ ∨ (∃ c ∈ [], _) ∧ _
    simp
  · exact fun c hc => absurd hc List.not_mem_nil
  · exact fun c _ hq => absurd hq List.not_mem_nil

/-- **A lookup runs to its end in order**, where the table answers with
distinct ids. -/
theorem runLookup_ok_ended {world : World τ ν}
    (hids : ((CloseNodes.closeNodes world.table target).map Contact.id).Nodup) :
    (rpc.runLookup target world).1.Ok (CloseNodes.closeNodes world.table target)
        rpc.myContact.id target
      ∧ (rpc.runLookup target world).1.Ended := by
  exact ⟨lookupLoop_ok _ _ (startLookup_ok hids rpc.myContact.id), runLookup_ended rpc target world⟩

/-- **What a node lookup returns**, whatever the peers reply and in whatever
order: the `K` nearest of all it heard of, nearest first, each of them asked
itself, and nobody asked twice.

The candidates are the `K` nearest of what was heard of at every moment
(`LookupState.Ok`), so they are at the end. A lookup ends only when every
candidate was asked, and then it has also heard what all of them had to say. Of
the table it is asked that it answers with distinct ids and does not name
ourselves; what a lookup makes of a table that does neither is said in
`asked_mem_lookupNode_iff`. -/
theorem lookupNode_nearest (rpc : Rpc τ ν) (target : NodeId) (world : World τ ν)
    (hids : ((CloseNodes.closeNodes world.table target).map Contact.id).Nodup)
    (hself : rpc.myContact.id ∉ (CloseNodes.closeNodes world.table target).map Contact.id) :
    let st := (rpc.runLookup target world).1
    let result := (rpc.lookupNode target world).1
    st.Ended ∧ result.length ≤ K ∧ (result.map Contact.id).Nodup
      ∧ rpc.myContact.id ∉ result.map Contact.id
      ∧ result.Pairwise (fun a b => distance a.id target < distance b.id target)
      ∧ Nearest.Selects (fun i => distance i target) K
          (st.known (CloseNodes.closeNodes world.table target) rpc.myContact.id)
          (result.map Contact.id)
      ∧ (∀ c ∈ result, c ∈ st.probes)
      ∧ (st.probes.map Contact.id).Nodup := by
  intro st result
  obtain ⟨hok, hended⟩ : st.Ok _ rpc.myContact.id target ∧ st.Ended := runLookup_ok_ended hids
  have hsorted : (st.candidates.map Contact.id).Pairwise
      (fun a b => distance a target < distance b target) := hok.selects.sorted
  rw [List.pairwise_map] at hsorted
  refine ⟨hended, ?_, hok.selects.nodup, fun hmem => ?_, hsorted, hok.selects,
    fun c hc => hok.asked c hc (hended.2 c hc), hok.nodup⟩
  · exact (List.length_map Contact.id).symm.trans_le hok.selects.length_le
  · rcases hok.selects.subset _ hmem with ⟨c, hc, hid⟩ | ⟨-, hne⟩
    · exact hself (hid ▸ List.mem_map.mpr ⟨c, hc, rfl⟩)
    · exact hne rfl

end Run

namespace Sample

/-- A contact, by the byte its id repeats and its port. -/
def peer (byte : UInt8) (port : UInt16) : Contact :=
  ⟨List.Vector.replicate idBytes byte, .v4 (List.Vector.replicate 4 10) port⟩

/-- Peers that name two others, one of them under a new port, and us. Calls
complete in changing order. -/
def gossip : Outside DumbBucket ℕ where
  settle world _ :=
    (world.net, .ok ((serialize [peer 2 9002, peer 3 8003, peer 255 9000]).getD []),
      { world with net := world.net + 1 })
  getDnsVk world _ := (none, world)

end Sample

/-- From a table of two contacts, a lookup finds a third, and keeps the
address it knew the second by. -/
theorem lookupNode_nearest_sample :
    let rpc : Rpc DumbBucket ℕ := ⟨Sample.peer 255 9000, Sample.gossip⟩
    let world : World DumbBucket ℕ := ⟨⟨[Sample.peer 2 8002, Sample.peer 1 8001]⟩, 1⟩
    let target := (Sample.peer 0 0).id
    let st := (rpc.runLookup target world).1
    let result := (rpc.lookupNode target world).1
    result = [Sample.peer 1 8001, Sample.peer 2 8002, Sample.peer 3 8003]
      ∧ st.Ended ∧ result.length ≤ K ∧ (result.map Contact.id).Nodup
      ∧ rpc.myContact.id ∉ result.map Contact.id
      ∧ result.Pairwise (fun a b => distance a.id target < distance b.id target)
      ∧ Nearest.Selects (fun i => distance i target) K
          (st.known (CloseNodes.closeNodes world.table target) rpc.myContact.id)
          (result.map Contact.id)
      ∧ (∀ c ∈ result, c ∈ st.probes)
      ∧ (st.probes.map Contact.id).Nodup :=
  ⟨by decide +kernel, lookupNode_nearest _ _ _ (by decide +kernel) (by decide +kernel)⟩

end Kademlia
