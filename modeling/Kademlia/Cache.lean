import Kademlia.Table

/-!
# Answers kept for a while

A node asks its routing table for the contacts nearest to one id over and over.
The cache in front of the table keeps the answers, each for a limited time, and
numbers the states of the table: a write counts the generation up, an answer is
kept with the generation it was asked in, and one of another generation is not
served.

Any number of calls use the cache at once, each in steps between which the
others go on. A reader loads the generation, looks for a kept answer, and if
there is none that is fresh asks the table, makes room and keeps what it was
told. A writer writes to the table and then counts up. That the generation is
loaded before the table is asked, and counted up after the table is written, is
what the result rests on: an answer kept under some generation was given when at
least that many writers had finished (`Traced`). A reader that starts after a
writer has finished loads a generation that counts this writer in, so what it
returns was given after the write.
-/

namespace Kademlia

/-- **What is expected of a routing table** in order: a query answers with
contacts held, and only an offer brings a contact in. -/
structure Lawful {C : Type} [CloseNodes C] (Inv : C → Prop) : Prop where
  /-- A write keeps the table in order. -/
  apply : ∀ table op, Inv table → Inv (TableOp.apply table op)
  /-- A query answers with contacts held. -/
  closeNodes_subset : ∀ table id, Inv table →
    CloseNodes.closeNodes table id ⊆ CloseNodes.contactsIter table
  /-- An offer brings in no other contact. -/
  of_mem_maybeAdd : ∀ table c x, Inv table →
    x ∈ CloseNodes.contactsIter (CloseNodes.maybeAddContact table c) →
    x = c ∨ x ∈ CloseNodes.contactsIter table
  /-- A removal removes the contact, and brings none in. -/
  of_mem_remove : ∀ table c x, Inv table →
    x ∈ CloseNodes.contactsIter (CloseNodes.removeContact table c) →
    x ≠ c ∧ x ∈ CloseNodes.contactsIter table

/-- The sibling list over the bucket table is such a table. -/
theorem SiblingList.lawful {B H M S : ℕ} [NeZero M] :
    Lawful (Ok : SiblingList (StaticBucket B H M) S → Prop) := by
  refine ⟨fun _ op h => h.apply op, fun _ id h => h.closeNodes_subset id, fun list c x h hx => ?_,
    fun _ c x h hx => ((h.mem_contactsIter_removeContact c x).mp hx).symm⟩
  by_cases hc : c.id = list.myId
  · have hsame : CloseNodes.maybeAddContact list c = list := maybeAddContact_of_myId list hc
    exact Or.inr (hsame ▸ hx)
  · exact (h.mem_contactsIter_of_maybeAddContact hc hx).imp_right And.left

namespace CachedCloseNodes

/-- An answer kept. -/
structure Entry where
  /-- The answer. -/
  contacts : List Contact
  /-- The generation it was asked in. -/
  generation : UInt64
  /-- When it was kept. -/
  stored : ℕ
deriving DecidableEq

end CachedCloseNodes

/-- A routing table with the answers kept for it. -/
structure CachedCloseNodes (C : Type) where
  /-- The table. -/
  inner : C
  /-- The answers, by the id asked for. -/
  entries : List (NodeId × CachedCloseNodes.Entry)
  /-- How many writes have made the answers before them stale. -/
  generation : UInt64
  /-- How long an answer is served. -/
  ttl : ℕ
  /-- How many answers are kept. -/
  capacity : ℕ
  /-- Whether offers make answers stale, as removals do. -/
  invalidateOnWrite : Bool
  /-- The time. -/
  now : ℕ

namespace CachedCloseNodes

variable {C : Type}

/-- A cache that serves no answer from before the last write. -/
def new (inner : C) (ttl capacity : ℕ) : CachedCloseNodes C :=
  ⟨inner, [], 0, ttl, capacity, true, 0⟩

/-- A cache that serves answers from before an offer. -/
def ttlOnly (inner : C) (ttl capacity : ℕ) : CachedCloseNodes C :=
  { new inner ttl capacity with invalidateOnWrite := false }

/-- A cache of either kind. -/
def build (inner : C) (ttl capacity : ℕ) (invalidateOnWrite : Bool) : CachedCloseNodes C :=
  if invalidateOnWrite then new inner ttl capacity else ttlOnly inner ttl capacity

/-- Drop every answer. -/
def clear (cache : CachedCloseNodes C) : CachedCloseNodes C := { cache with entries := [] }

/-- Whether an answer may be served in a generation. -/
def isFresh (cache : CachedCloseNodes C) (entry : Entry) (generation : UInt64) : Bool :=
  entry.generation == generation && decide (cache.now - entry.stored < cache.ttl)

/-- Make room for one more answer: drop those that may not be served, and if that
is not enough all of them. -/
def makeRoom (cache : CachedCloseNodes C) (generation : UInt64) : CachedCloseNodes C :=
  if cache.entries.length < cache.capacity then cache
  else
    let entries := cache.entries.filter (fun p => cache.isFresh p.2 generation)
    { cache with entries := if cache.capacity ≤ entries.length then [] else entries }

/-- The cache at another time. -/
def atTime (cache : CachedCloseNodes C) (time : ℕ) : CachedCloseNodes C :=
  { cache with now := time }

/-- The same where time passes while the answers are judged, each at a time of
its own. -/
def makeRoomBy (cache : CachedCloseNodes C) (generation : UInt64) (times : NodeId → ℕ) :
    CachedCloseNodes C :=
  if cache.entries.length < cache.capacity then cache
  else
    let entries :=
      cache.entries.filter (fun p => (cache.atTime (times p.1)).isFresh p.2 generation)
    { cache with entries := if cache.capacity ≤ entries.length then [] else entries }

/-- The answer to serve for an id, if one is kept. -/
def lookup (cache : CachedCloseNodes C) (id : NodeId) (generation : UInt64) :
    Option (List Contact) :=
  match cache.entries.find? (fun p => p.1 == id) with
  | some (_, entry) => if cache.isFresh entry generation then some entry.contacts else none
  | none => none

/-- Keep an answer, in the place of one for the same id. -/
def insert (cache : CachedCloseNodes C) (id : NodeId) (entry : Entry) : CachedCloseNodes C :=
  { cache with entries := (id, entry) :: cache.entries.filter (fun p => p.1 != id) }

/-- Count the generation up. -/
def bump (cache : CachedCloseNodes C) : CachedCloseNodes C :=
  { cache with generation := cache.generation + 1 }

/-- Whether a write makes the answers before it stale. -/
def invalidates (cache : CachedCloseNodes C) : TableOp → Bool
  | .remove _ => true
  | .maybeAdd _ => cache.invalidateOnWrite

variable [CloseNodes C]

/-- Write to the table. -/
def write (cache : CachedCloseNodes C) (op : TableOp) : CachedCloseNodes C :=
  { cache with inner := op.apply cache.inner }

/-- The contacts nearest to an id: as kept, or as the table answers, which is
then kept. -/
def closeNodes (cache : CachedCloseNodes C) (id : NodeId) :
    List Contact × CachedCloseNodes C :=
  let generation := cache.generation
  match cache.lookup id generation with
  | some contacts => (contacts, cache)
  | none =>
    let contacts := CloseNodes.closeNodes cache.inner id
    (contacts, (cache.makeRoom generation).insert id ⟨contacts, generation, cache.now⟩)

/-- Drop a contact. -/
def removeContact (cache : CachedCloseNodes C) (contact : Contact) : CachedCloseNodes C :=
  (cache.write (.remove contact)).bump

/-- Offer a contact. -/
def maybeAddContact (cache : CachedCloseNodes C) (contact : Contact) : CachedCloseNodes C :=
  let cache := cache.write (.maybeAdd contact)
  if cache.invalidateOnWrite then cache.bump else cache

/-- Everything the table holds. -/
def contactsIter (cache : CachedCloseNodes C) : List Contact :=
  CloseNodes.contactsIter cache.inner

/-- As a routing table; that an answer is kept does not change what it holds. -/
instance : CloseNodes (CachedCloseNodes C) where
  closeNodes cache id := (cache.closeNodes id).1
  maybeAddContact := maybeAddContact
  removeContact := removeContact
  contactsIter := contactsIter

omit [CloseNodes C] in
/-- A new cache is empty, and of its kind. -/
theorem build_eq (inner : C) (ttl capacity : ℕ) (invalidateOnWrite : Bool) :
    build inner ttl capacity invalidateOnWrite
      = ⟨inner, [], 0, ttl, capacity, invalidateOnWrite, 0⟩ := by
  cases invalidateOnWrite <;> rfl

/-! ## Calls in steps

A call of the program loads an atomic generation, looks in a concurrent map and
asks the table one after the other, with no lock around them, so between any
two of these another call may run. `Caller` is a call by the step it takes
next, and `Caller.advance` takes one step. A query needs at most five steps and
a write two; taken without interruption they are the functions above
(`finish_loading`, `finish_writing`), so the two readings of the cache are
one. -/

/-- A call under way, by the step it takes next. -/
inductive Caller where
  /-- A query loads the generation. -/
  | loading (id : NodeId)
  /-- It looks for a kept answer. -/
  | looking (id : NodeId) (generation : UInt64)
  /-- It asks the table. -/
  | querying (id : NodeId) (generation : UInt64)
  /-- It makes room for the answer. -/
  | makingRoom (id : NodeId) (generation : UInt64) (contacts : List Contact)
  /-- It keeps the answer. -/
  | inserting (id : NodeId) (generation : UInt64) (contacts : List Contact)
  /-- It has returned. -/
  | returned (id : NodeId) (contacts : List Contact)
  /-- A write writes to the table. -/
  | writing (op : TableOp)
  /-- It counts the generation up. -/
  | bumping (op : TableOp)
  /-- It has returned. -/
  | wrote (op : TableOp)
deriving DecidableEq

/-- One step of a call. -/
def Caller.advance (cache : CachedCloseNodes C) : Caller → Caller × CachedCloseNodes C
  | .loading id => (.looking id cache.generation, cache)
  | .looking id generation =>
    match cache.lookup id generation with
    | some contacts => (.returned id contacts, cache)
    | none => (.querying id generation, cache)
  | .querying id generation =>
    (.makingRoom id generation (CloseNodes.closeNodes cache.inner id), cache)
  | .makingRoom id generation contacts =>
    (.inserting id generation contacts, cache.makeRoom generation)
  | .inserting id generation contacts =>
    (.returned id contacts, cache.insert id ⟨contacts, generation, cache.now⟩)
  | .returned id contacts => (.returned id contacts, cache)
  | .writing op => (if cache.invalidates op then .bumping op else .wrote op, cache.write op)
  | .bumping op => (.wrote op, cache.bump)
  | .wrote op => (.wrote op, cache)

/-- A call that takes all its steps at once. -/
def Caller.finish (cache : CachedCloseNodes C) (caller : Caller) : Caller × CachedCloseNodes C :=
  (fun p => p.1.advance p.2)^[5] (caller, cache)

omit [CloseNodes C] in
theorem makeRoomBy_now (cache : CachedCloseNodes C) (generation : UInt64) :
    cache.makeRoomBy generation (fun _ => cache.now) = cache.makeRoom generation := rfl

omit [CloseNodes C] in
/-- Making room does nothing but drop answers, and leaves room where one answer
may be kept. -/
theorem makeRoomBy_eq (cache : CachedCloseNodes C) (generation : UInt64) (times : NodeId → ℕ) :
    ∃ entries ⊆ cache.entries, (0 < cache.capacity → entries.length < cache.capacity)
      ∧ cache.makeRoomBy generation times = { cache with entries := entries } := by
  unfold makeRoomBy
  split
  · next hroom => exact ⟨cache.entries, List.Subset.refl _, fun _ => hroom, rfl⟩
  · refine ⟨_, ?_, ?_, rfl⟩
    · split
      · exact List.nil_subset _
      · exact List.filter_subset_self _
    · intro hcapacity
      split
      · exact hcapacity
      · next hroom => exact not_le.mp hroom

omit [CloseNodes C] in
theorem makeRoom_eq (cache : CachedCloseNodes C) (generation : UInt64) :
    ∃ entries ⊆ cache.entries, cache.makeRoom generation = { cache with entries := entries } := by
  obtain ⟨entries, hsub, -, heq⟩ := cache.makeRoomBy_eq generation (fun _ => cache.now)
  exact ⟨entries, hsub, heq⟩

omit [CloseNodes C] in
@[simp] theorem now_makeRoom (cache : CachedCloseNodes C) (generation : UInt64) :
    (cache.makeRoom generation).now = cache.now := by
  obtain ⟨entries, -, heq⟩ := cache.makeRoom_eq generation
  rw [heq]

omit [CloseNodes C] in
/-- An answer that is served is kept, under the generation it is served in, and
has not been for too long. -/
theorem of_lookup_eq_some {cache : CachedCloseNodes C} {id : NodeId} {generation : UInt64}
    {contacts : List Contact} (h : cache.lookup id generation = some contacts) :
    ∃ entry, (id, entry) ∈ cache.entries ∧ entry.generation = generation
      ∧ entry.contacts = contacts ∧ cache.now - entry.stored < cache.ttl := by
  unfold lookup at h
  split at h
  · next id' entry hfind =>
    split at h
    · next hfresh =>
      have hid : id' = id := by simpa using List.find?_some hfind
      obtain ⟨hgeneration, hage⟩ := Bool.and_eq_true_iff.mp hfresh
      exact ⟨entry, hid ▸ List.mem_of_find?_eq_some hfind, beq_iff_eq.mp hgeneration,
        Option.some.inj h, of_decide_eq_true hage⟩
    · cases h
  · cases h

/-- **A query nobody interrupts is the query.** The generation it loads is
still the generation when it looks and when it keeps the answer, and the table
it asks is the one it started with. -/
theorem finish_loading (cache : CachedCloseNodes C) (id : NodeId) :
    Caller.finish cache (.loading id)
      = (.returned id (cache.closeNodes id).1, (cache.closeNodes id).2) := by
  unfold Caller.finish closeNodes
  cases hlook : cache.lookup id cache.generation with
  | some contacts => simp [Caller.advance, hlook]
  | none =>
    -- room is made before the clock is read again, and takes no time
    simp [Caller.advance, hlook, now_makeRoom]

/-- A write nobody interrupts is the write. -/
theorem finish_writing (cache : CachedCloseNodes C) (op : TableOp) :
    Caller.finish cache (.writing op) = (.wrote op, op.apply cache) := by
  unfold Caller.finish
  cases op with
  | remove c => simp [Caller.advance, invalidates, TableOp.apply, CloseNodes.removeContact,
      removeContact]
  | maybeAdd c =>
    have happly : TableOp.apply cache (.maybeAdd c) = cache.maybeAddContact c := rfl
    have hsame : (cache.write (.maybeAdd c)).invalidateOnWrite = cache.invalidateOnWrite := rfl
    rw [happly]
    unfold maybeAddContact
    cases hinv : cache.invalidateOnWrite with
    | true => simp [Caller.advance, invalidates, hinv, hsame]
    | false => simp [Caller.advance, invalidates, hinv, hsame]

/-- What a step of a call can do. -/
inductive Caller.Advances (cache : CachedCloseNodes C) :
    Caller → Caller → CachedCloseNodes C → Prop where
  /-- Nothing is left to do. -/
  | stay (caller : Caller) : Advances cache caller caller cache
  /-- Load the generation. -/
  | load (id : NodeId) : Advances cache (.loading id) (.looking id cache.generation) cache
  /-- Serve an answer. -/
  | hit {id : NodeId} {entry : Entry} (hmem : (id, entry) ∈ cache.entries) :
      Advances cache (.looking id entry.generation) (.returned id entry.contacts) cache
  /-- Find none to serve. -/
  | miss (id : NodeId) (generation : UInt64) :
      Advances cache (.looking id generation) (.querying id generation) cache
  /-- Ask the table. -/
  | query (id : NodeId) (generation : UInt64) :
      Advances cache (.querying id generation)
        (.makingRoom id generation (CloseNodes.closeNodes cache.inner id)) cache
  /-- Drop answers. -/
  | makeRoom (id : NodeId) (generation : UInt64) (contacts : List Contact)
      {entries : List (NodeId × Entry)} (hsub : entries ⊆ cache.entries) :
      Advances cache (.makingRoom id generation contacts) (.inserting id generation contacts)
        { cache with entries := entries }
  /-- Keep the answer. -/
  | insert (id : NodeId) (generation : UInt64) (contacts : List Contact)
      {entries : List (NodeId × Entry)}
      (hsub : entries ⊆ (id, ⟨contacts, generation, cache.now⟩) :: cache.entries) :
      Advances cache (.inserting id generation contacts) (.returned id contacts)
        { cache with entries := entries }
  /-- Write to the table. -/
  | write (op : TableOp) {next : Caller}
      (hnext : next = .bumping op ∧ cache.invalidates op = true
        ∨ next = .wrote op ∧ cache.invalidates op = false) :
      Advances cache (.writing op) next (cache.write op)
  /-- Count up. -/
  | bump (op : TableOp) : Advances cache (.bumping op) (.wrote op) cache.bump

/-- **A step of a call does one of these.** Later proofs go through these cases
and never unfold a step: what a step cannot do, such as keeping an answer that
was not asked for or counting up without having written, is not among them. -/
theorem Caller.advances (cache : CachedCloseNodes C) (caller : Caller) :
    caller.Advances cache (caller.advance cache).1 (caller.advance cache).2 := by
  cases caller with
  | loading id => exact .load id
  | looking id generation =>
    unfold advance
    dsimp only
    split
    · next hlook =>
      obtain ⟨entry, hmem, rfl, rfl, -⟩ := of_lookup_eq_some hlook
      exact .hit hmem
    · exact .miss id generation
  | querying id generation => exact .query id generation
  | makingRoom id generation contacts =>
    obtain ⟨entries, hsub, heq⟩ := cache.makeRoom_eq generation
    show Advances cache _ _ (cache.makeRoom generation)
    rw [heq]
    exact .makeRoom id generation contacts hsub
  | inserting id generation contacts =>
    exact .insert id generation contacts (List.cons_subset_cons _ (List.filter_subset_self _))
  | returned id contacts => exact .stay _
  | writing op =>
    cases hinv : cache.invalidates op with
    | true => exact .write op (Or.inl ⟨if_pos hinv, hinv⟩)
    | false => exact .write op (Or.inr ⟨if_neg (Bool.eq_false_iff.mp hinv), hinv⟩)
  | bumping op => exact .bump op
  | wrote op => exact .stay _

/-! ## Calls that interleave

A run starts with an unused cache and no calls. Calls are numbered in the order
they are made and never removed, so a call is named by its number for the rest
of the run, and that it has returned is a fact about a state. Time passes, and
the answers may be dropped, between any two steps. -/

/-- The cache, and the calls made on it. -/
structure Shared (C : Type) where
  /-- What they share. -/
  cache : CachedCloseNodes C
  /-- The calls, in the order they were made. -/
  callers : List Caller

/-- What may happen next. -/
inductive Event where
  /-- A query is made. -/
  | read (id : NodeId)
  /-- A write is made. -/
  | write (op : TableOp)
  /-- A call takes a step. -/
  | step (i : ℕ)
  /-- Time passes. -/
  | tick (elapsed : ℕ)
  /-- The answers are dropped. -/
  | clear

/-- Whether an event makes a call that writes. -/
def Event.isWrite : Event → Bool
  | .write _ => true
  | _ => false

namespace Shared

/-- What one event leaves. -/
def step (s : Shared C) : Event → Shared C
  | .read id => { s with callers := s.callers ++ [.loading id] }
  | .write op => { s with callers := s.callers ++ [.writing op] }
  | .step i =>
    match s.callers[i]? with
    | none => s
    | some caller =>
      let (caller, cache) := caller.advance s.cache
      ⟨cache, s.callers.set i caller⟩
  | .tick elapsed => { s with cache := { s.cache with now := s.cache.now + elapsed } }
  | .clear => { s with cache := s.cache.clear }

/-- What a sequence of events leaves, starting with an unused cache. -/
def run (cache : CachedCloseNodes C) (events : List Event) : Shared C :=
  events.foldl step ⟨cache, []⟩

/-! ## One step -/

/-- The calls in some state of theirs. -/
def indices (s : Shared C) (p : Caller → Bool) : Finset ℕ :=
  (Finset.range s.callers.length).filter (fun i => (s.callers[i]?).any p)

variable {s t : Shared C}

omit [CloseNodes C] in
theorem mem_indices {p : Caller → Bool} {i : ℕ} :
    i ∈ s.indices p ↔ ∃ caller, s.callers[i]? = some caller ∧ p caller = true := by
  unfold indices
  rw [Finset.mem_filter, Finset.mem_range, Option.any_eq_true]
  exact and_iff_right_of_imp fun ⟨caller, hc, _⟩ => (List.getElem?_eq_some_iff.mp hc).1

/-- What a step can do. -/
inductive Steps (s : Shared C) : Event → Shared C → Prop where
  /-- Make a call. -/
  | call (event : Event) {caller : Caller}
      (hnew : (∃ id, event = .read id ∧ caller = .loading id)
        ∨ ∃ op, event = .write op ∧ caller = .writing op) :
      Steps s event { s with callers := s.callers ++ [caller] }
  /-- Move a call on. -/
  | advance {i : ℕ} {caller next : Caller} {cache : CachedCloseNodes C}
      (hc : s.callers[i]? = some caller) (hadv : caller.Advances s.cache next cache) :
      Steps s (.step i) ⟨cache, s.callers.set i next⟩
  /-- Nothing that a call does. -/
  | other (event : Event) (now : ℕ) {entries : List (NodeId × Entry)}
      (hentries : entries ⊆ s.cache.entries) :
      Steps s event { s with cache := { s.cache with now := now, entries := entries } }

/-- **A step does one of these.** -/
theorem steps (s : Shared C) (event : Event) : s.Steps event (s.step event) := by
  cases event with
  | read id => exact .call _ (Or.inl ⟨id, rfl, rfl⟩)
  | write op => exact .call _ (Or.inr ⟨op, rfl, rfl⟩)
  | step i =>
    unfold step
    dsimp only
    split
    · exact .other _ s.cache.now (List.Subset.refl _)
    · next caller hc => exact .advance hc (caller.advances s.cache)
  | tick elapsed => exact .other _ _ (List.Subset.refl _)
  | clear => exact .other _ s.cache.now (List.nil_subset _)

/-- **What becomes of a call.** -/
theorem Steps.callers {event : Event} (hstep : s.Steps event t) {j : ℕ} {next : Caller}
    (h : t.callers[j]? = some next) :
    s.callers[j]? = some next
      ∨ (∃ id, next = .loading id)
      ∨ (∃ op, event = .write op ∧ j = s.callers.length ∧ next = .writing op)
      ∨ ∃ caller cache, event = .step j ∧ s.callers[j]? = some caller
        ∧ caller.Advances s.cache next cache ∧ t.cache = cache := by
  cases hstep with
  | call _ hnew =>
    by_cases hlt : j < s.callers.length
    · exact Or.inl ((List.getElem?_append_left hlt).symm.trans h)
    · have hlast := (List.getElem?_eq_some_iff.mp h).1
      rw [List.length_append, List.length_singleton] at hlast
      obtain rfl : j = s.callers.length := by omega
      dsimp only at h
      rw [List.getElem?_concat_length] at h
      cases h
      rcases hnew with ⟨id, -, rfl⟩ | ⟨op, hevent, rfl⟩
      · exact Or.inr (Or.inl ⟨id, rfl⟩)
      · exact Or.inr (Or.inr (Or.inl ⟨op, hevent, rfl, rfl⟩))
  | @advance i caller _ _ hc hadv =>
    dsimp only at h
    by_cases hij : i = j
    · subst hij
      rw [List.getElem?_set_self (List.getElem?_eq_some_iff.mp hc).1] at h
      cases h
      exact Or.inr (Or.inr (Or.inr ⟨caller, _, rfl, hc, hadv, rfl⟩))
    · rw [List.getElem?_set_ne hij] at h
      exact Or.inl h
  | other => exact Or.inl h

/-- A call stays as it is, or takes a step. -/
theorem Steps.callers_keep {event : Event} (hstep : s.Steps event t) {j : ℕ} {caller : Caller}
    (h : s.callers[j]? = some caller) :
    t.callers[j]? = some caller
      ∨ ∃ next cache, t.callers[j]? = some next ∧ caller.Advances s.cache next cache := by
  have hlt := (List.getElem?_eq_some_iff.mp h).1
  cases hstep with
  | call => exact Or.inl ((List.getElem?_append_left hlt).trans h)
  | @advance i caller' next cache hc hadv =>
    by_cases hij : i = j
    · subst hij
      obtain rfl : caller = caller' := Option.some.inj (h.symm.trans hc)
      exact Or.inr ⟨next, cache, List.getElem?_set_self hlt, hadv⟩
    · exact Or.inl ((List.getElem?_set_ne hij).trans h)
  | other => exact Or.inl h

/-- A step changes no setting. -/
theorem Steps.invalidateOnWrite {event : Event} (hstep : s.Steps event t) :
    t.cache.invalidateOnWrite = s.cache.invalidateOnWrite := by
  cases hstep with
  | call | other => rfl
  | advance hc hadv => cases hadv <;> rfl

/-- Calls are only ever added. -/
theorem Steps.length_callers {event : Event} (hstep : s.Steps event t) :
    s.callers.length ≤ t.callers.length := by
  cases hstep with
  | call => exact (List.length_append ..).symm ▸ Nat.le_add_right _ _
  | advance => exact List.length_set.ge
  | other => exact le_rfl

/-! ## Who has counted up

The generation is a 64-bit number without an owner. What makes it say something
is that it is the number of calls which have counted up (`bumped`): a
generation that was loaded early in a run counts fewer calls, and if it counts
as many they are the same. -/

/-- The calls whose write has made the answers before it stale, in a cache where
offers do so or do not. -/
def counted (invalidateOnWrite : Bool) : Caller → Bool
  | .wrote (.remove _) => true
  | .wrote (.maybeAdd _) => invalidateOnWrite
  | _ => false

/-- The calls that have counted the generation up. -/
def bumped (s : Shared C) : Finset ℕ := s.indices (counted s.cache.invalidateOnWrite)

omit [CloseNodes C] in
theorem counted_wrote (cache : CachedCloseNodes C) (op : TableOp) :
    counted cache.invalidateOnWrite (.wrote op) = cache.invalidates op := by
  cases op <;> rfl

omit [CloseNodes C] in
theorem mem_bumped {i : ℕ} :
    i ∈ s.bumped ↔ ∃ op, s.callers[i]? = some (.wrote op) ∧ s.cache.invalidates op = true := by
  unfold bumped
  rw [mem_indices]
  constructor
  · rintro ⟨caller, hc, hcount⟩
    cases caller with
    | wrote op => exact ⟨op, hc, (counted_wrote s.cache op).symm.trans hcount⟩
    | loading | looking | querying | makingRoom | inserting | returned | writing | bumping =>
      cases hcount
  · rintro ⟨op, hc, hinv⟩
    exact ⟨_, hc, (counted_wrote s.cache op).trans hinv⟩

theorem Steps.invalidates {event : Event} (hstep : s.Steps event t) (op : TableOp) :
    t.cache.invalidates op = s.cache.invalidates op := by
  unfold CachedCloseNodes.invalidates
  rw [hstep.invalidateOnWrite]

/-- A call that has returned stays so. -/
theorem Steps.wrote {event : Event} (hstep : s.Steps event t) {i : ℕ} {op : TableOp}
    (h : s.callers[i]? = some (.wrote op)) : t.callers[i]? = some (.wrote op) := by
  rcases hstep.callers_keep h with hkeep | ⟨next, cache, hnext, hadv⟩
  · exact hkeep
  · cases hadv
    exact hnext

/-- Who has counted up has. -/
theorem Steps.bumped_subset {event : Event} (hstep : s.Steps event t) : s.bumped ⊆ t.bumped := by
  intro i hi
  obtain ⟨op, hc, hinv⟩ := mem_bumped.mp hi
  exact mem_bumped.mpr ⟨op, hstep.wrote hc, (hstep.invalidates op).trans hinv⟩

/-- A call about to count up has something to count. -/
def Counting (s : Shared C) : Prop :=
  ∀ (i : ℕ) (op : TableOp), s.callers[i]? = some (.bumping op) → s.cache.invalidates op = true

theorem Steps.counting {event : Event} (hstep : s.Steps event t) (h : s.Counting) :
    t.Counting := by
  intro i op hi
  rw [hstep.invalidates]
  rcases hstep.callers hi with hold | ⟨_, hnew⟩ | ⟨_, -, -, hnew⟩ | ⟨caller, _, -, hc, hadv, -⟩
  · exact h i op hold
  · cases hnew
  · cases hnew
  · cases hadv with
    | stay => exact h i op hc
    | write op' hnext =>
      rcases hnext with ⟨hop, hinv⟩ | ⟨hop, -⟩
      · cases hop
        exact hinv
      · cases hop

omit [CloseNodes C] in
/-- Who has counted up after a call moved on. -/
theorem mem_bumped_set {i : ℕ} {caller next : Caller} (hc : s.callers[i]? = some caller)
    (ht : t.callers = s.callers.set i next)
    (hinv : t.cache.invalidateOnWrite = s.cache.invalidateOnWrite) {j : ℕ} :
    j ∈ t.bumped
      ↔ if j = i then counted s.cache.invalidateOnWrite next = true else j ∈ s.bumped := by
  unfold bumped
  rw [mem_indices, mem_indices, ht, hinv]
  split
  · next hij =>
    rw [hij, List.getElem?_set_self (List.getElem?_eq_some_iff.mp hc).1]
    simp
  · next hij => rw [List.getElem?_set_ne (Ne.symm hij)]

omit [CloseNodes C] in
theorem mem_bumped_iff_counted {i : ℕ} {caller : Caller} (hc : s.callers[i]? = some caller) :
    i ∈ s.bumped ↔ counted s.cache.invalidateOnWrite caller = true := by
  unfold bumped
  rw [mem_indices, hc]
  simp

omit [CloseNodes C] in
theorem bumped_set_of_same {i : ℕ} {caller next : Caller} (hc : s.callers[i]? = some caller)
    (ht : t.callers = s.callers.set i next)
    (hinv : t.cache.invalidateOnWrite = s.cache.invalidateOnWrite)
    (hsame : counted s.cache.invalidateOnWrite next = counted s.cache.invalidateOnWrite caller) :
    t.bumped = s.bumped := by
  ext j
  rw [mem_bumped_set hc ht hinv]
  split
  · next hij => rw [hij, hsame, mem_bumped_iff_counted hc]
  · rfl

/-- **The generation counts those who have counted up.** A step that counts up
moves one call, which had not counted up before, to having done so; every other
step changes neither the generation nor who has. -/
theorem Steps.generation {event : Event} (hstep : s.Steps event t) (h : s.Counting) :
    (t.bumped = s.bumped ∧ t.cache.generation = s.cache.generation)
      ∨ t.bumped.card = s.bumped.card + 1 ∧ t.cache.generation = s.cache.generation + 1 := by
  have hsub := hstep.bumped_subset
  have hcallers := fun (j : ℕ) (op : TableOp) (hj : t.callers[j]? = some (.wrote op)) =>
    hstep.callers hj
  cases hstep with
  | call event hnew =>
    refine Or.inl ⟨(hsub.antisymm fun j hj => ?_).symm, rfl⟩
    obtain ⟨op, hc, hinv⟩ := mem_bumped.mp hj
    rcases hcallers j op hc with hold | ⟨_, hno⟩ | ⟨_, -, -, hno⟩ | ⟨_, _, hevent, -⟩
    · exact mem_bumped.mpr ⟨op, hold, hinv⟩
    · cases hno
    · cases hno
    · rcases hnew with ⟨_, he, -⟩ | ⟨_, he, -⟩ <;> cases he.symm.trans hevent
  | other => exact Or.inl ⟨rfl, rfl⟩
  | @advance i caller next cache hc hadv =>
    have hsame := bumped_set_of_same (t := ⟨cache, s.callers.set i next⟩) hc rfl
      (Steps.advance hc hadv).invalidateOnWrite
    cases hadv with
    | stay | load | hit | miss | query | makeRoom | insert => exact Or.inl ⟨hsame rfl, rfl⟩
    | write op hnext =>
      refine Or.inl ⟨hsame ?_, rfl⟩
      rcases hnext with ⟨rfl, -⟩ | ⟨rfl, hinv⟩
      · rfl
      · exact (counted_wrote s.cache op).trans hinv
    | bump op =>
      refine Or.inr ⟨?_, rfl⟩
      have hnot : i ∉ s.bumped := fun hi => (nomatch (mem_bumped_iff_counted hc).mp hi)
      have hinsert : (⟨s.cache.bump, s.callers.set i (.wrote op)⟩ : Shared C).bumped
          = Insert.insert i s.bumped := by
        ext j
        refine (mem_bumped_set (t := ⟨s.cache.bump, s.callers.set i (.wrote op)⟩)
          hc rfl rfl).trans ?_
        rw [Finset.mem_insert]
        split
        · next hij =>
          exact iff_of_true ((counted_wrote s.cache op).trans (h i op hc)) (Or.inl hij)
        · next hij => exact (or_iff_right hij).symm
      rw [hinsert, Finset.card_insert_of_notMem hnot]

/-- The calls that write. -/
def isWriter : Caller → Bool
  | .writing _ | .bumping _ | .wrote _ => true
  | _ => false

/-- A call that moves on writes if it did. -/
theorem isWriter_of_advances {cache cache' : CachedCloseNodes C} {caller next : Caller}
    (h : caller.Advances cache next cache') (hnext : isWriter next = true) :
    isWriter caller = true := by
  cases h with
  | stay => exact hnext
  | write | bump => rfl
  | load | hit | miss | query | makeRoom | insert => cases hnext

/-- There are no more writers than writes. -/
theorem Steps.card_writers {event : Event} (hstep : s.Steps event t) :
    (t.indices isWriter).card
      ≤ (s.indices isWriter).card + if Event.isWrite event then 1 else 0 := by
  have hmem : ∀ j ∈ t.indices isWriter, j ∈ s.indices isWriter
      ∨ Event.isWrite event = true ∧ j = s.callers.length := by
    intro j hj
    obtain ⟨next, hnext, hwriter⟩ := mem_indices.mp hj
    rcases hstep.callers hnext with
      hold | ⟨_, rfl⟩ | ⟨_, rfl, hlast, -⟩ | ⟨caller, _, -, hc, hadv, -⟩
    · exact Or.inl (mem_indices.mpr ⟨next, hold, hwriter⟩)
    · cases hwriter
    · exact Or.inr ⟨rfl, hlast⟩
    · exact Or.inl (mem_indices.mpr ⟨caller, hc, isWriter_of_advances hadv hwriter⟩)
  split
  · refine (Finset.card_le_card fun j hj => ?_).trans (Finset.card_insert_le s.callers.length _)
    exact Finset.mem_insert.mpr ((hmem j hj).symm.imp_left And.right)
  · next hno =>
    exact Finset.card_le_card fun j hj => (hmem j hj).resolve_right fun hw => hno hw.1

/-! ## Where an answer comes from

Two things happened in the past of a state: a query loaded its generation
(`Loaded`), and the table gave an answer (`Given`). `Traced` says that every
generation in use and every answer kept or about to be kept has such a past,
and `Given` keeps the one inequality that matters: when the table was asked, at
least as many calls had counted up as the generation says. -/

variable {cache : CachedCloseNodes C} {events : List Event}

theorem run_append (cache : CachedCloseNodes C) (events : List Event) (event : Event) :
    run cache (events ++ [event]) = (run cache events).step event :=
  List.foldl_append

theorem card_bumped_le (cache : CachedCloseNodes C) (events : List Event) :
    (run cache events).bumped.card ≤ events.countP Event.isWrite := by
  have hwriters : ((run cache events).indices isWriter).card ≤ events.countP Event.isWrite := by
    induction events using List.reverseRecOn with
    | nil => exact le_rfl
    | append_singleton events event ih =>
      rw [run_append, List.countP_append, List.countP_singleton]
      exact (steps _ event).card_writers.trans (Nat.add_le_add_right ih _)
  refine (Finset.card_le_card fun i hi => ?_).trans hwriters
  obtain ⟨op, hc, -⟩ := mem_bumped.mp hi
  exact mem_indices.mpr ⟨_, hc, rfl⟩

/-- Who has counted up early in a run has counted up later. -/
theorem bumped_subset_of_isPrefix {before : List Event} (h : before <+: events) :
    (run cache before).bumped ⊆ (run cache events).bumped := by
  obtain ⟨after, rfl⟩ := h
  induction after using List.reverseRecOn with
  | nil => rw [List.append_nil]
  | append_singleton after event ih =>
    rw [← List.append_assoc, run_append]
    exact ih.trans (steps _ event).bumped_subset

/-- A call loaded a generation: as many had counted up then. -/
def Loaded (cache : CachedCloseNodes C) (events : List Event) (j : ℕ) (id : NodeId)
    (generation : UInt64) : Prop :=
  ∃ before, before <+: events ∧ (run cache before).callers[j]? = some (.loading id)
    ∧ generation.toNat = (run cache before).bumped.card

/-- **The table gave an answer**, after as many had counted up as a generation
says. -/
def Given (cache : CachedCloseNodes C) (events : List Event) (id : NodeId) (generation : UInt64)
    (contacts : List Contact) : Prop :=
  ∃ before k g, before ++ [.step k] <+: events
    ∧ (run cache before).callers[k]? = some (.querying id g)
    ∧ CloseNodes.closeNodes (run cache before).cache.inner id = contacts
    ∧ generation.toNat ≤ (run cache before).bumped.card

/-- The id and the generation a query has loaded. -/
def stamp : Caller → Option (NodeId × UInt64)
  | .looking id generation | .querying id generation | .makingRoom id generation _
  | .inserting id generation _ => some (id, generation)
  | _ => none

/-- The answer a query is about to keep. -/
def answer : Caller → Option (NodeId × UInt64 × List Contact)
  | .makingRoom id generation contacts | .inserting id generation contacts =>
    some (id, generation, contacts)
  | _ => none

/-- **Every answer kept under a generation was given in it or later.** -/
structure Traced (cache : CachedCloseNodes C) (events : List Event) : Prop where
  /-- Who is about to count up has something to count. -/
  counting : (run cache events).Counting
  /-- The generation counts those who have counted up. -/
  generation : (run cache events).cache.generation.toNat = (run cache events).bumped.card
  /-- A query has loaded its generation. -/
  loaded : ∀ (j : ℕ) (caller : Caller) (id : NodeId) (generation : UInt64),
    (run cache events).callers[j]? = some caller → stamp caller = some (id, generation) →
    Loaded cache events j id generation
  /-- It has asked the table for what it is about to keep. -/
  answer : ∀ (j : ℕ) (caller : Caller) (id : NodeId) (generation : UInt64)
    (contacts : List Contact), (run cache events).callers[j]? = some caller →
    answer caller = some (id, generation, contacts) → Given cache events id generation contacts
  /-- What is kept was given. -/
  entries : ∀ p ∈ (run cache events).cache.entries,
    Given cache events p.1 p.2.generation p.2.contacts
  /-- What is returned was given, in the generation loaded or later. -/
  returned : ∀ (j : ℕ) (id : NodeId) (contacts : List Contact),
    (run cache events).callers[j]? = some (.returned id contacts) →
    ∃ generation, Loaded cache events j id generation ∧ Given cache events id generation contacts

theorem Loaded.append {j : ℕ} {id : NodeId} {generation : UInt64}
    (h : Loaded cache events j id generation) (event : Event) :
    Loaded cache (events ++ [event]) j id generation := by
  obtain ⟨before, hpre, hload⟩ := h
  exact ⟨before, hpre.trans (List.prefix_append _ _), hload⟩

theorem Given.append {id : NodeId} {generation : UInt64} {contacts : List Contact}
    (h : Given cache events id generation contacts) (event : Event) :
    Given cache (events ++ [event]) id generation contacts := by
  obtain ⟨before, k, g, hpre, hgiven⟩ := h
  exact ⟨before, k, g, hpre.trans (List.prefix_append _ _), hgiven⟩

/-- What is kept after a step was kept before, or a call has just kept it. -/
theorem Steps.entries {event : Event} (hstep : s.Steps event t) {p : NodeId × Entry}
    (hp : p ∈ t.cache.entries) :
    p ∈ s.cache.entries
      ∨ ∃ j : ℕ, s.callers[j]? = some (.inserting p.1 p.2.generation p.2.contacts) := by
  cases hstep with
  | call => exact Or.inl hp
  | other event now hentries => exact Or.inl (hentries hp)
  | @advance i caller next cache' hc hadv =>
    cases hadv with
    | stay | load | hit | miss | query | write | bump => exact Or.inl hp
    | makeRoom id generation contacts hsub => exact Or.inl (hsub hp)
    | insert id generation contacts hsub =>
      rcases List.mem_cons.mp (hsub hp) with rfl | hold
      · exact Or.inr ⟨i, hc⟩
      · exact Or.inl hold

/-- A generation loaded is not ahead of those who have counted up. -/
theorem Loaded.le {j : ℕ} {id : NodeId} {generation : UInt64}
    (h : Loaded cache events j id generation) :
    generation.toNat ≤ (run cache events).bumped.card := by
  obtain ⟨before, hpre, -, hgen⟩ := h
  rw [hgen]
  exact Finset.card_le_card (bumped_subset_of_isPrefix hpre)

theorem traced_nil (hentries : cache.entries = []) (hgen : cache.generation = 0) :
    Traced cache [] := by
  have hrun : run cache [] = ⟨cache, []⟩ := rfl
  refine ⟨fun i op h => (nomatch h), ?_, fun j _ _ _ h => (nomatch h),
    fun j _ _ _ _ h => (nomatch h), fun p hp => ?_, fun j _ _ h => (nomatch h)⟩
  · rw [hrun, hgen]
    rfl
  · rw [hrun, hentries] at hp
    exact absurd hp List.not_mem_nil

/-- The generation is counted up as far as there are writes. -/
theorem Traced.generation_append (h : Traced cache events) (event : Event)
    (hfew : (events ++ [event]).countP Event.isWrite < 2 ^ 64) :
    (run cache (events ++ [event])).cache.generation.toNat
      = (run cache (events ++ [event])).bumped.card := by
  have hle := card_bumped_le cache (events ++ [event])
  rw [run_append] at hle ⊢
  rcases (steps _ event).generation h.counting with ⟨hbumped, hgen⟩ | ⟨hcard, hgen⟩
  · rw [hgen, hbumped]
    exact h.generation
  · rw [hgen, UInt64.toNat_add, h.generation, hcard]
    rw [hcard] at hle
    exact Nat.mod_eq_of_lt (hle.trans_lt hfew)

/-- A query still has loaded its generation. -/
theorem Traced.loaded_append (h : Traced cache events) (event : Event) {j : ℕ} {next : Caller}
    {id : NodeId} {generation : UInt64}
    (hj : (run cache (events ++ [event])).callers[j]? = some next)
    (hstamp : stamp next = some (id, generation)) :
    Loaded cache (events ++ [event]) j id generation := by
  rw [run_append] at hj
  rcases (steps _ event).callers hj with hold | ⟨_, rfl⟩ | ⟨_, -, -, rfl⟩ |
    ⟨caller, _, -, hc, hadv, -⟩
  · exact (h.loaded j next id generation hold hstamp).append event
  · cases hstamp
  · cases hstamp
  · cases hadv with
    | stay => exact (h.loaded j next id generation hc hstamp).append event
    | load =>
      cases hstamp
      exact ⟨events, List.prefix_append _ _, hc, h.generation⟩
    | miss | query | makeRoom =>
      cases hstamp
      exact (h.loaded j _ _ _ hc rfl).append event
    | hit | insert | bump => cases hstamp
    | write _ hnext => rcases hnext with ⟨rfl, -⟩ | ⟨rfl, -⟩ <;> cases hstamp

/-- What a query is about to keep, it was given. -/
theorem Traced.answer_append (h : Traced cache events) (event : Event) {j : ℕ} {next : Caller}
    {id : NodeId} {generation : UInt64} {contacts : List Contact}
    (hj : (run cache (events ++ [event])).callers[j]? = some next)
    (hanswer : Shared.answer next = some (id, generation, contacts)) :
    Given cache (events ++ [event]) id generation contacts := by
  rw [run_append] at hj
  rcases (steps _ event).callers hj with hold | ⟨_, rfl⟩ | ⟨_, -, -, rfl⟩ |
    ⟨caller, _, hevent, hc, hadv, -⟩
  · exact (h.answer j next id generation contacts hold hanswer).append event
  · cases hanswer
  · cases hanswer
  · cases hadv with
    | stay => exact (h.answer j next id generation contacts hc hanswer).append event
    | query =>
      cases hanswer
      subst hevent
      exact ⟨events, j, _, List.prefix_rfl, hc, rfl, (h.loaded j _ _ _ hc rfl).le⟩
    | makeRoom =>
      cases hanswer
      exact (h.answer j _ _ _ _ hc rfl).append event
    | load | miss | hit | insert | bump => cases hanswer
    | write _ hnext => rcases hnext with ⟨rfl, -⟩ | ⟨rfl, -⟩ <;> cases hanswer

/-- What a query returns was kept, or it has just kept it. -/
theorem Traced.returned_append (h : Traced cache events) (event : Event) {j : ℕ} {id : NodeId}
    {contacts : List Contact}
    (hj : (run cache (events ++ [event])).callers[j]? = some (.returned id contacts)) :
    ∃ generation, Loaded cache (events ++ [event]) j id generation
      ∧ Given cache (events ++ [event]) id generation contacts := by
  have hkeep : (run cache events).callers[j]? = some (.returned id contacts) →
      ∃ generation, Loaded cache (events ++ [event]) j id generation
        ∧ Given cache (events ++ [event]) id generation contacts := by
    intro hold
    obtain ⟨generation, hload, hgiven⟩ := h.returned j id contacts hold
    exact ⟨generation, hload.append event, hgiven.append event⟩
  rw [run_append] at hj
  rcases (steps _ event).callers hj with hold | ⟨_, hno⟩ | ⟨_, -, -, hno⟩ |
    ⟨caller, _, -, hc, hadv, -⟩
  · exact hkeep hold
  · cases hno
  · cases hno
  · cases hadv with
    | stay => exact hkeep hc
    | hit hmem =>
      exact ⟨_, (h.loaded j _ _ _ hc rfl).append event, (h.entries _ hmem).append event⟩
    | insert =>
      exact ⟨_, (h.loaded j _ _ _ hc rfl).append event, (h.answer j _ _ _ _ hc rfl).append event⟩
    | write _ hnext => rcases hnext with ⟨hno, -⟩ | ⟨hno, -⟩ <;> cases hno

/-- **The step.** Each of the clauses has a lemma of its own above. A query
that asks the table has loaded its generation before, and who has counted up by
then has counted up now; from there the answer only changes hands, from the
query to the entries and from the entries to another query of the same
generation. -/
theorem Traced.append (h : Traced cache events) (event : Event)
    (hfew : (events ++ [event]).countP Event.isWrite < 2 ^ 64) :
    Traced cache (events ++ [event]) := by
  have hstep := steps (run cache events) event
  refine ⟨?_, h.generation_append event hfew, fun _ _ _ _ => h.loaded_append event,
    fun _ _ _ _ _ => h.answer_append event, fun p hp => ?_, fun _ _ _ => h.returned_append event⟩
  · rw [run_append]
    exact hstep.counting h.counting
  · rw [run_append] at hp
    rcases hstep.entries hp with hold | ⟨j, hc⟩
    · exact (h.entries p hold).append event
    · exact (h.answer j _ _ _ _ hc rfl).append event

/-- **The run.** With fewer than `2 ^ 64` writes the generation does not come
round, and is the number of calls that have counted up. -/
theorem traced_run (hentries : cache.entries = []) (hgen : cache.generation = 0)
    (hfew : events.countP Event.isWrite < 2 ^ 64) : Traced cache events := by
  induction events using List.reverseRecOn with
  | nil => exact traced_nil hentries hgen
  | append_singleton events event ih =>
    refine (ih (lt_of_le_of_lt ?_ hfew)).append event hfew
    rw [List.countP_append]
    exact Nat.le_add_right _ _

/-- A call has written to the table. -/
def HasWritten (s : Shared C) (i : ℕ) (op : TableOp) : Prop :=
  s.callers[i]? = some (.bumping op) ∨ s.callers[i]? = some (.wrote op)

/-- A call has written after a step if it had before, or the step wrote. -/
theorem Steps.hasWritten {event : Event} (hstep : s.Steps event t) {i : ℕ} {op : TableOp}
    (h : t.HasWritten i op) :
    s.HasWritten i op ∨ t.cache.inner = op.apply s.cache.inner := by
  rcases h with h | h
  all_goals
    rcases hstep.callers h with hold | ⟨_, hno⟩ | ⟨_, -, -, hno⟩ | ⟨caller, _, -, hc, hadv, hcache⟩
  · exact Or.inl (Or.inl hold)
  · cases hno
  · cases hno
  · cases hadv with
    | stay => exact Or.inl (Or.inl hc)
    | write op' hnext =>
      rcases hnext with ⟨hop, -⟩ | ⟨hop, -⟩ <;> cases hop
      exact Or.inr (congrArg CachedCloseNodes.inner hcache)
  · exact Or.inl (Or.inr hold)
  · cases hno
  · cases hno
  · cases hadv with
    | stay => exact Or.inl (Or.inr hc)
    | bump => exact Or.inl (Or.inl hc)
    | write op' hnext =>
      rcases hnext with ⟨hop, -⟩ | ⟨hop, -⟩ <;> cases hop
      exact Or.inr (congrArg CachedCloseNodes.inner hcache)

/-- Only a call that writes changes the table. -/
theorem Steps.inner {event : Event} (hstep : s.Steps event t) :
    t.cache.inner = s.cache.inner
      ∨ ∃ (k : ℕ) (op : TableOp), event = .step k ∧ s.callers[k]? = some (.writing op)
        ∧ t.cache.inner = op.apply s.cache.inner := by
  cases hstep with
  | call | other => exact Or.inl rfl
  | @advance i caller next cache hc hadv =>
    cases hadv with
    | write op => exact Or.inr ⟨i, op, rfl, hc, rfl⟩
    | stay | load | hit | miss | query | makeRoom | insert | bump => exact Or.inl rfl

section Lawful

variable {Inv : C → Prop}

/-- A table in order stays in order. -/
theorem inv_run (hlaw : Lawful Inv) (hinner : Inv cache.inner) (events : List Event) :
    Inv (run cache events).cache.inner := by
  induction events using List.reverseRecOn with
  | nil => exact hinner
  | append_singleton events event ih =>
    rw [run_append]
    rcases (steps (run cache events) event).inner with heq | ⟨k, op, -, -, heq⟩
    · rw [heq]
      exact ih
    · rw [heq]
      exact hlaw.apply _ op ih

/-- **A contact that is held after its removal was offered in between.** The
last step that wrote to the table cannot have been the removal, since a removal
leaves the contact out; going back from the end of the run, the contact was
held before a step or the step offered it. -/
theorem offered_of_mem (hlaw : Lawful Inv) (hinner : Inv cache.inner) {i : ℕ} {c : Contact}
    (hwritten : (run cache events).HasWritten i (.remove c))
    (hmem : c ∈ CloseNodes.contactsIter (run cache events).cache.inner) :
    ∃ (before : List Event) (k : ℕ), before ++ [.step k] <+: events
      ∧ (run cache before).callers[k]? = some (.writing (.maybeAdd c))
      ∧ (run cache before).HasWritten i (.remove c) := by
  induction events using List.reverseRecOn with
  | nil => rcases hwritten with h | h <;> cases h
  | append_singleton events event ih =>
    have hinv := inv_run hlaw hinner events
    rw [run_append] at hwritten hmem
    have hstep := steps (run cache events) event
    have hearlier : (run cache events).HasWritten i (.remove c) →
        c ∈ CloseNodes.contactsIter (run cache events).cache.inner → _ := fun hw hm =>
      (ih hw hm).imp fun before => Exists.imp fun k =>
        And.imp_left fun hpre => hpre.trans (List.prefix_append events [event])
    rcases hstep.hasWritten hwritten with hbefore | hnow
    · rcases hstep.inner with heq | ⟨k, op, rfl, hk, heq⟩
      · exact hearlier hbefore (heq ▸ hmem)
      · rw [heq] at hmem
        cases op with
        | maybeAdd c' =>
          rcases hlaw.of_mem_maybeAdd _ c' c hinv hmem with rfl | hold
          · exact ⟨events, k, List.prefix_rfl, hk, hbefore⟩
          · exact hearlier hbefore hold
        | remove c' => exact hearlier hbefore (hlaw.of_mem_remove _ c' c hinv hmem).2
    · -- the step is the removal itself
      rw [hnow] at hmem
      exact absurd rfl (hlaw.of_mem_remove _ c c hinv hmem).1

end Lawful

theorem invalidates_run (cache : CachedCloseNodes C) (events : List Event) (op : TableOp) :
    (run cache events).cache.invalidates op = cache.invalidates op := by
  induction events using List.reverseRecOn with
  | nil => rfl
  | append_singleton events event ih => rw [run_append, (steps _ event).invalidates, ih]

theorem length_callers_le_of_isPrefix {before : List Event} (h : before <+: events) :
    (run cache before).callers.length ≤ (run cache events).callers.length := by
  obtain ⟨after, rfl⟩ := h
  induction after using List.reverseRecOn with
  | nil => rw [List.append_nil]
  | append_singleton after event ih =>
    rw [← List.append_assoc, run_append]
    exact ih.trans (steps _ event).length_callers

theorem wrote_of_isPrefix {before : List Event} (h : before <+: events) {i : ℕ} {op : TableOp}
    (hwrote : (run cache before).callers[i]? = some (.wrote op)) :
    (run cache events).callers[i]? = some (.wrote op) := by
  obtain ⟨after, rfl⟩ := h
  induction after using List.reverseRecOn with
  | nil => rwa [List.append_nil]
  | append_singleton after event ih =>
    rw [← List.append_assoc, run_append]
    exact (steps _ event).wrote ih

end Shared

/-- **The cache serves nothing from before a write that has completed.** Where
a query begins after a write has returned that makes answers stale, the table
gave the answer it returns when the write had returned. So a contact whose
removal has returned is not in the answer, unless it was offered after it was
removed.

The query begins after the write has returned and so loads a generation that
counts the write in. What it returns was given under a generation not older
than that, hence when at least as many calls had counted up. Those who count up
early stay counted, so of two sets of them the larger contains the smaller, and
the write is among those that had counted up when the table was asked. The
statement is about every interleaving of any number of calls, with fewer than
`2 ^ 64` writes among them. -/
theorem answer_after_write (inner : C) (ttl capacity : ℕ) (invalidateOnWrite : Bool)
    (events : List Event) (hfew : events.countP Event.isWrite < 2 ^ 64)
    (before : List Event) (hbefore : before <+: events) (i : ℕ) (op : TableOp)
    (hwrote : (Shared.run (build inner ttl capacity invalidateOnWrite) before).callers[i]?
      = some (.wrote op))
    (hinv : (build inner ttl capacity invalidateOnWrite).invalidates op = true)
    (j : ℕ) (id : NodeId) (contacts : List Contact)
    (hlater : (Shared.run (build inner ttl capacity invalidateOnWrite) before).callers.length ≤ j)
    (hreturned : (Shared.run (build inner ttl capacity invalidateOnWrite) events).callers[j]?
      = some (.returned id contacts)) :
    (∃ (asked : List Event) (k : ℕ) (generation : UInt64), asked ++ [.step k] <+: events
      ∧ (Shared.run (build inner ttl capacity invalidateOnWrite) asked).callers[k]?
        = some (.querying id generation)
      ∧ CloseNodes.closeNodes
          (Shared.run (build inner ttl capacity invalidateOnWrite) asked).cache.inner id = contacts
      ∧ (Shared.run (build inner ttl capacity invalidateOnWrite) asked).callers[i]?
        = some (.wrote op))
    ∧ ∀ (Inv : C → Prop), Lawful Inv → Inv inner → ∀ c, op = .remove c → c ∈ contacts →
      ∃ (added : List Event) (k : ℕ), added ++ [.step k] <+: events
        ∧ (Shared.run (build inner ttl capacity invalidateOnWrite) added).callers[k]?
          = some (.writing (.maybeAdd c))
        ∧ (Shared.run (build inner ttl capacity invalidateOnWrite) added).HasWritten i op := by
  set cache := build inner ttl capacity invalidateOnWrite with hcache
  have htraced : Shared.Traced cache events := by
    refine Shared.traced_run ?_ ?_ hfew <;> rw [hcache, build_eq]
  obtain ⟨g, ⟨loaded, hloaded, hloading, hg⟩, asked, k, generation, hpre, hquery, hanswer, hle⟩ :=
    htraced.returned j id contacts hreturned
  have hasked : asked <+: events := (List.prefix_append _ _).trans hpre
  have hbumped : i ∈ (Shared.run cache before).bumped :=
    Shared.mem_bumped.mpr ⟨op, hwrote, (Shared.invalidates_run cache before op).trans hinv⟩
  -- the query began after the write, so its generation counts the write in
  have hafter : before <+: loaded := by
    refine (List.prefix_or_prefix_of_prefix hbefore hloaded).resolve_right fun hno => ?_
    have hlt := (List.getElem?_eq_some_iff.mp hloading).1
    exact absurd (hlater.trans_lt hlt)
      (not_lt.mpr (Shared.length_callers_le_of_isPrefix hno))
  have hcard : (Shared.run cache before).bumped.card ≤ (Shared.run cache asked).bumped.card :=
    (Finset.card_le_card (Shared.bumped_subset_of_isPrefix hafter)).trans (hg ▸ hle)
  have hwritten : (Shared.run cache asked).callers[i]? = some (.wrote op) := by
    rcases List.prefix_or_prefix_of_prefix hbefore hasked with h | h
    · exact Shared.wrote_of_isPrefix h hwrote
    · -- both have counted equally often, so the same calls have
      have hsame := Finset.eq_of_subset_of_card_le (Shared.bumped_subset_of_isPrefix h) hcard
      obtain ⟨op', hop, -⟩ := Shared.mem_bumped.mp (hsame ▸ hbumped)
      cases (Shared.wrote_of_isPrefix h hop).symm.trans hwrote
      exact hop
  refine ⟨⟨asked, k, generation, hpre, hquery, hanswer, hwritten⟩, ?_⟩
  rintro Inv hlaw hinner c rfl hc
  have hstart : Inv cache.inner := by
    rw [hcache, build_eq]
    exact hinner
  have hheld : c ∈ CloseNodes.contactsIter (Shared.run cache asked).cache.inner :=
    hlaw.closeNodes_subset _ id (Shared.inv_run hlaw hstart asked) (hanswer ▸ hc)
  obtain ⟨added, k', hadded, hwriting, hsince⟩ :=
    Shared.offered_of_mem hlaw hstart (Or.inr hwritten) hheld
  exact ⟨added, k', hadded.trans hasked, hwriting, hsince⟩

namespace Sample

/-- A contact. -/
def known : Contact :=
  ⟨List.Vector.replicate idBytes 1, .v4 (List.Vector.replicate 4 10) 8001⟩

/-- A contact is offered, asked for, and removed. -/
def removed : List Event :=
  [.write (.maybeAdd known), .step 0, .step 0,
    .read known.id, .step 1, .step 1, .step 1, .step 1, .step 1,
    .write (.remove known), .step 2, .step 2]

/-- It is offered again, and asked for again. -/
def again : List Event :=
  [.write (.maybeAdd known), .step 3, .step 3,
    .read known.id, .step 4, .step 4, .step 4, .step 4, .step 4]

end Sample

/-- The contact is in the second answer because it was offered again. -/
theorem answer_after_write_sample :
    ∃ (added : List Event) (k : ℕ), added ++ [.step k] <+: Sample.removed ++ Sample.again
      ∧ (Shared.run (build (Table.run (List.Vector.replicate idBytes 0) []) 10 4 true)
          added).callers[k]? = some (.writing (.maybeAdd Sample.known)) := by
  obtain ⟨-, hadded⟩ := answer_after_write (Table.run (List.Vector.replicate idBytes 0) []) 10 4
    true (Sample.removed ++ Sample.again) (by decide) Sample.removed (List.prefix_append _ _) 2
    (.remove Sample.known) (by decide +kernel) rfl 4 Sample.known.id [Sample.known]
    (by decide +kernel) (by decide +kernel)
  obtain ⟨added, k, hpre, hwriting, -⟩ := hadded SiblingList.Ok SiblingList.lawful
    (Table.ok_run _ []) Sample.known rfl List.mem_cons_self
  exact ⟨added, k, hpre, hwriting⟩

end CachedCloseNodes

end Kademlia
