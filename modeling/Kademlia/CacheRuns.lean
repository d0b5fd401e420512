import Kademlia.Cache

/-!
# The cache with one call after another

Where calls do not overlap, the cache should not be seen at all, but for the age
of its answers. The table below changes through the cache only, and a write that
counts makes every answer before it stale; so an answer that is served was given
by the table as it has been since the last such write. In a cache where every
write counts that is the table as it is.

The generation is a 64-bit number and comes round after as many writes, so this
holds for fewer. Time is read by a query up to three times: when it judges the
answer kept for its id, when it judges the others to make room, and when it
keeps a new one. The clock may move on between these readings, and from one of
the others to the next (`Readings`); nothing depends on how.
-/

namespace Kademlia

namespace CachedCloseNodes

variable {C : Type}

/-! ## Calls

A query reads the clock several times, and the readings are part of the call: a
run is any sequence of calls with any readings that do not go back. -/

/-- How the clock moves during a query. -/
structure Readings where
  /-- From the last reading of the clock to that for the answer kept. -/
  looking : ℕ
  /-- From then to that for each of the answers, where room is made. -/
  makingRoom : NodeId → ℕ
  /-- From then to that for the new answer. -/
  inserting : ℕ
  /-- The new answer is kept after room is made. -/
  makingRoom_le : ∀ id, makingRoom id ≤ inserting

/-- The clock stands still. -/
def Readings.still : Readings := ⟨0, fun _ => 0, 0, fun _ => le_rfl⟩

variable [CloseNodes C]

/-- A query, with the readings of the clock it makes. -/
def closeNodesBy (cache : CachedCloseNodes C) (id : NodeId) (readings : Readings) :
    List Contact × CachedCloseNodes C :=
  let generation := cache.generation
  let cache := cache.atTime (cache.now + readings.looking)
  match cache.lookup id generation with
  | some contacts => (contacts, cache)
  | none =>
    let contacts := CloseNodes.closeNodes cache.inner id
    let stored := cache.now + readings.inserting
    let cache := cache.makeRoomBy generation (fun id => cache.now + readings.makingRoom id)
    (contacts, (cache.atTime stored).insert id ⟨contacts, generation, stored⟩)

/-- **With the clock standing still it is the query** of the cache as a routing
table, so what is said here about runs is said about that one. -/
theorem closeNodesBy_still (cache : CachedCloseNodes C) (id : NodeId) :
    cache.closeNodesBy id .still = cache.closeNodes id := by
  have hlooked : cache.atTime (cache.now + Readings.still.looking) = cache := rfl
  unfold closeNodesBy closeNodes
  dsimp only
  rw [hlooked]
  cases cache.lookup id cache.generation with
  | some contacts => rfl
  | none =>
    obtain ⟨entries, -, heq⟩ := cache.makeRoom_eq cache.generation
    show (_, ((cache.makeRoomBy _ fun _ => cache.now).atTime cache.now).insert id _) = _
    rw [makeRoomBy_now]
    dsimp only
    rw [heq]
    rfl

/-- A call. -/
inductive Call where
  /-- Ask for the contacts nearest to an id. -/
  | closeNodes (id : NodeId) (readings : Readings)
  /-- Write to the table. -/
  | write (op : TableOp)
  /-- Drop every answer. -/
  | clear

/-- What a call leaves. -/
def Call.apply (cache : CachedCloseNodes C) : Call → CachedCloseNodes C
  | .closeNodes id readings => (cache.closeNodesBy id readings).2
  | .write op => op.apply cache
  | .clear => cache.clear

/-- What one call after another leaves. -/
def afterCalls (cache : CachedCloseNodes C) (calls : List Call) : CachedCloseNodes C :=
  calls.foldl Call.apply cache

/-- The write a call makes. -/
def Call.write? : Call → Option TableOp
  | .write op => some op
  | .closeNodes _ _ | .clear => none

/-- The writes calls make, in order. -/
def writes (calls : List Call) : List TableOp := calls.filterMap Call.write?

theorem afterCalls_append (cache : CachedCloseNodes C) (before after : List Call) :
    cache.afterCalls (before ++ after) = (cache.afterCalls before).afterCalls after :=
  List.foldl_append ..

theorem afterCalls_concat (cache : CachedCloseNodes C) (calls : List Call) (call : Call) :
    cache.afterCalls (calls ++ [call]) = call.apply (cache.afterCalls calls) :=
  List.foldl_concat ..

/-! ## One call -/

/-- **What a query does.** It serves an answer that is kept, of this generation
and not too old. Or it asks the table, and keeps the answer, after dropping as
many of the others as it takes to stay within the capacity. -/
theorem closeNodesBy_cases (cache : CachedCloseNodes C) (id : NodeId) (readings : Readings) :
    (∃ entry, (id, entry) ∈ cache.entries ∧ entry.generation = cache.generation
        ∧ cache.now + readings.looking - entry.stored < cache.ttl
        ∧ cache.closeNodesBy id readings
          = (entry.contacts, cache.atTime (cache.now + readings.looking)))
      ∨ ∃ entries now, cache.now ≤ now
        ∧ entries ⊆ (id, ⟨CloseNodes.closeNodes cache.inner id, cache.generation, now⟩)
          :: cache.entries
        ∧ (0 < cache.capacity → entries.length ≤ cache.capacity)
        ∧ cache.closeNodesBy id readings
          = (CloseNodes.closeNodes cache.inner id,
            { cache with entries := entries, now := now }) := by
  unfold closeNodesBy
  dsimp only
  cases hlook : (cache.atTime (cache.now + readings.looking)).lookup id cache.generation with
  | some contacts =>
    obtain ⟨entry, hmem, hgeneration, rfl, hage⟩ := of_lookup_eq_some hlook
    exact Or.inl ⟨entry, hmem, hgeneration, hage, rfl⟩
  | none =>
    obtain ⟨entries, hsub, hroom, heq⟩ := makeRoomBy_eq
      (cache.atTime (cache.now + readings.looking)) cache.generation
      (fun id => cache.now + readings.looking + readings.makingRoom id)
    refine Or.inr ⟨(id, ⟨_, _, _⟩) :: entries.filter (fun p => p.1 != id),
      cache.now + readings.looking + readings.inserting, by omega,
      List.cons_subset_cons _ (List.Subset.trans (List.filter_subset_self _) hsub),
      fun hcapacity => ?_, ?_⟩
    · have hlen := List.length_filter_le (fun p : NodeId × Entry => p.1 != id) entries
      exact (Nat.succ_le_succ hlen).trans (hroom hcapacity)
    · dsimp only [atTime] at heq ⊢
      rw [heq]
      rfl

/-- What a call can do. -/
inductive Call.Applies (cache : CachedCloseNodes C) : Call → CachedCloseNodes C → Prop where
  /-- Drop answers, and keep answers the table gives. -/
  | keep {call : Call} (hcall : call.write? = none) {entries : List (NodeId × Entry)} {now : ℕ}
      (hnow : cache.now ≤ now)
      (hentries : ∀ p ∈ entries, p ∈ cache.entries
        ∨ p.2 = ⟨CloseNodes.closeNodes cache.inner p.1, cache.generation, now⟩)
      (hlength : 0 < cache.capacity → cache.entries.length ≤ cache.capacity →
        entries.length ≤ cache.capacity) :
      Applies cache call { cache with entries := entries, now := now }
  /-- Write, and count up if the write counts. -/
  | write (op : TableOp) : Applies cache (.write op)
      { cache with
        inner := op.apply cache.inner
        generation := if cache.invalidates op then cache.generation + 1 else cache.generation }

/-- **A call does one of these.** -/
theorem Call.applies (cache : CachedCloseNodes C) (call : Call) :
    call.Applies cache (call.apply cache) := by
  cases call with
  | closeNodes id readings =>
    show Applies cache _ (cache.closeNodesBy id readings).2
    rcases cache.closeNodesBy_cases id readings with
      ⟨entry, -, -, -, heq⟩ | ⟨entries, now, hnow, hsub, hlength, heq⟩
    · rw [heq]
      exact .keep rfl (Nat.le_add_right _ _) (fun _ hp => Or.inl hp) (fun _ hle => hle)
    · rw [heq]
      refine .keep rfl hnow (fun p hp => ?_) (fun hcapacity _ => hlength hcapacity)
      rcases List.mem_cons.mp (hsub hp) with rfl | hold
      · exact Or.inr rfl
      · exact Or.inl hold
  | clear =>
    exact .keep rfl le_rfl (fun _ hp => absurd hp List.not_mem_nil) (fun _ _ => Nat.zero_le _)
  | write op =>
    have heq : Call.apply cache (.write op) = { cache with
        inner := op.apply cache.inner
        generation :=
          if cache.invalidates op then cache.generation + 1 else cache.generation } := by
      cases op with
      | remove c => rfl
      | maybeAdd c =>
        show (if cache.invalidateOnWrite then (cache.write (.maybeAdd c)).bump
          else cache.write (.maybeAdd c)) = _
        unfold invalidates
        split <;> rfl
    rw [heq]
    exact .write op

/-! ## Runs

Two invariants are followed along a run. `Tracks` is about everything but the
answers: the table below has seen exactly the writes, and the generation counts
those that count. And every answer kept is one the table gave at some moment of
the run (`GivenIn`), stamped with the generation of that moment. -/

variable (start : CachedCloseNodes C)

/-- **Runs are followed from the end**: what holds at the start, and after every
call if it held before, holds after every run. -/
theorem afterCalls_induction {P : List Call → CachedCloseNodes C → Prop} (hnil : P [] start)
    (hstep : ∀ calls call next, start.afterCalls (calls ++ [call]) = next →
      call.Applies (start.afterCalls calls) next → P calls (start.afterCalls calls) →
      P (calls ++ [call]) next)
    (calls : List Call) : P calls (start.afterCalls calls) := by
  induction calls using List.reverseRecOn with
  | nil => exact hnil
  | append_singleton calls call ih =>
    rw [afterCalls_concat]
    exact hstep calls call _ (afterCalls_concat ..) (call.applies _) ih

theorem writes_append (before after : List Call) :
    writes (before ++ after) = writes before ++ writes after := List.filterMap_append

theorem writes_singleton (call : Call) : writes [call] = call.write?.toList := by
  cases call <;> rfl

/-- **What a run does apart from keeping answers.** The settings stay, the table
sees the writes, and those that count are counted. -/
structure Tracks (start : CachedCloseNodes C) (calls : List Call) (cache : CachedCloseNodes C) :
    Prop where
  /-- How long answers are served. -/
  ttl : cache.ttl = start.ttl
  /-- How many are kept. -/
  capacity : cache.capacity = start.capacity
  /-- Of which kind the cache is. -/
  invalidateOnWrite : cache.invalidateOnWrite = start.invalidateOnWrite
  /-- The table has seen the writes. -/
  inner : cache.inner = (writes calls).foldl TableOp.apply start.inner
  /-- Those that count were counted. -/
  generation : cache.generation
    = start.generation + UInt64.ofNat ((writes calls).countP start.invalidates)

/-- The step. -/
theorem Tracks.applies {start cache next : CachedCloseNodes C} {calls : List Call}
    (h : Tracks start calls cache) {call : Call} (hstep : call.Applies cache next) :
    Tracks start (calls ++ [call]) next := by
  cases hstep with
  | keep hcall =>
    have hwrites : writes (calls ++ [call]) = writes calls := by
      rw [writes_append, writes_singleton, hcall, Option.toList_none, List.append_nil]
    exact ⟨h.ttl, h.capacity, h.invalidateOnWrite, hwrites ▸ h.inner, hwrites ▸ h.generation⟩
  | write op =>
    have hwrites : writes (calls ++ [.write op]) = writes calls ++ [op] := writes_append ..
    have hinvalidates : cache.invalidates op = start.invalidates op := by
      cases op with
      | remove c => rfl
      | maybeAdd c => exact h.invalidateOnWrite
    refine ⟨h.ttl, h.capacity, h.invalidateOnWrite, ?_, ?_⟩
    · rw [hwrites, List.foldl_concat, ← h.inner]
    · dsimp only
      rw [hwrites, List.countP_append, List.countP_singleton, hinvalidates, h.generation]
      split
      · rw [UInt64.ofNat_add, ← UInt64.add_assoc]
        rfl
      · rfl

theorem tracks_afterCalls (calls : List Call) :
    Tracks start calls (start.afterCalls calls) := by
  refine start.afterCalls_induction ?_ (fun calls call next _ hstep h => h.applies hstep) calls
  exact ⟨rfl, rfl, rfl, rfl, (UInt64.add_zero _).symm⟩

/-- An answer that the table gives at some moment of a run, in the generation and
at the time of that moment. -/
def GivenIn (calls : List Call) (p : NodeId × Entry) : Prop :=
  ∃ before after, calls = before ++ after
    ∧ p.2 = ⟨CloseNodes.closeNodes (start.afterCalls before).inner p.1,
      (start.afterCalls before).generation, (start.afterCalls before).now⟩

theorem GivenIn.append {start : CachedCloseNodes C} {calls : List Call} {p : NodeId × Entry}
    (h : start.GivenIn calls p) (call : Call) : start.GivenIn (calls ++ [call]) p := by
  obtain ⟨before, after, rfl, heq⟩ := h
  exact ⟨before, after ++ [call], List.append_assoc .., heq⟩

/-- **Every answer kept is one the table gave.** A query that keeps an answer
has just been given it, and all other calls only drop answers. -/
theorem givenIn_of_mem (hstart : start.entries = []) (calls : List Call) :
    ∀ p ∈ (start.afterCalls calls).entries, start.GivenIn calls p := by
  refine start.afterCalls_induction (P := fun calls cache => ∀ p ∈ cache.entries,
    start.GivenIn calls p) ?_ (fun calls call next hnext hstep ih p hp => ?_) calls
  · intro p hp
    rw [hstart] at hp
    exact absurd hp List.not_mem_nil
  · cases hstep with
    | keep hcall hnow hentries hlength =>
      rcases hentries p hp with hold | hnew
      · exact (ih p hold).append call
      · -- it is of the moment after the query, which leaves the table as it was
        refine ⟨calls ++ [call], [], (List.append_nil _).symm, ?_⟩
        rw [hnext]
        exact hnew
    | write op => exact (ih p hp).append _

/-- **No more answers are kept than there is room for.** -/
theorem length_entries_le (hstart : start.entries = []) (hcapacity : 0 < start.capacity)
    (calls : List Call) : (start.afterCalls calls).entries.length ≤ start.capacity := by
  refine start.afterCalls_induction (P := fun _ cache => cache.entries.length ≤ start.capacity)
    ?_ (fun calls call next _ hstep ih => ?_) calls
  · rw [hstart]
    exact Nat.zero_le _
  · cases hstep with
    | keep hcall hnow hentries hlength =>
      rw [(tracks_afterCalls start calls).capacity] at hlength
      exact hlength hcapacity ih
    | write op => exact ih

/-- Time does not go back. -/
theorem now_le_afterCalls (calls : List Call) : start.now ≤ (start.afterCalls calls).now := by
  refine start.afterCalls_induction (P := fun _ cache => start.now ≤ cache.now) le_rfl
    (fun calls call next _ hstep ih => ?_) calls
  cases hstep with
  | keep hcall hnow => exact ih.trans hnow
  | write op => exact ih

/-- **What a query returns is what the table returned** at some moment of the
run, since which no write counted, and which is now or not too long ago. An
answer is served only under the generation it was given in. The two generations
are counts of writes, which do not come round, so no write in between has
counted. -/
theorem closeNodesBy_eq (hstart : start.entries = []) {calls : List Call}
    (hfew : (writes calls).length < 2 ^ 64) (id : NodeId) (readings : Readings) :
    ∃ before after, calls = before ++ after
      ∧ ((start.afterCalls calls).closeNodesBy id readings).1
        = CloseNodes.closeNodes (start.afterCalls before).inner id
      ∧ (∀ op ∈ writes after, start.invalidates op = false)
      ∧ (after = [] ∨ (start.afterCalls calls).now + readings.looking
        - (start.afterCalls before).now < start.ttl) := by
  rcases (start.afterCalls calls).closeNodesBy_cases id readings with
    ⟨entry, hmem, hgeneration, hage, heq⟩ | ⟨_, _, -, -, -, heq⟩
  · obtain ⟨before, after, rfl, hentry⟩ := givenIn_of_mem start hstart calls _ hmem
    dsimp only at hentry
    subst hentry
    rw [(tracks_afterCalls start _).ttl] at hage
    refine ⟨before, after, rfl, by rw [heq], ?_, Or.inr hage⟩
    -- as many writes were counted by then as by now
    dsimp only at hgeneration
    rw [(tracks_afterCalls start before).generation,
      (tracks_afterCalls start (before ++ after)).generation, writes_append,
      List.countP_append] at hgeneration
    rw [writes_append, List.length_append] at hfew
    have hcount := (UInt64.add_right_inj _).mp hgeneration
    have hle := List.countP_le_length (p := start.invalidates) (l := writes before)
    have hle' := List.countP_le_length (p := start.invalidates) (l := writes after)
    have hlt := (Nat.add_le_add hle hle').trans_lt hfew
    have hnat := congrArg UInt64.toNat hcount
    rw [UInt64.toNat_ofNat_of_lt' ((Nat.le_add_right _ _).trans_lt hlt),
      UInt64.toNat_ofNat_of_lt' hlt] at hnat
    have hzero : (writes after).countP start.invalidates = 0 := Nat.left_eq_add.mp hnat
    intro op hop
    exact Bool.eq_false_iff.mpr (List.countP_eq_zero.mp hzero op hop)
  · exact ⟨calls, [], (List.append_nil _).symm, by rw [heq],
      fun _ hop => absurd hop List.not_mem_nil, Or.inl rfl⟩

/-- **The cache is not seen but for the age of its answers.** In a cache where
every write counts a query returns what the table returns that has seen the
writes. In one where offers do not count it returns what the table returned at
some moment of the run, since which nothing was removed, and which is now or
less than the time ago for which answers are served. Neither keeps more answers
than there is room for.

Both are `closeNodesBy_eq`. If every write counts, there was no write since
that moment and the table is as it was then, so the age of the answer does not
show. If only removals count, there may have been offers since, and all that
bounds their number is the time for which answers are served. -/
theorem cache_transparent (inner : C) (ttl capacity : ℕ) (hcapacity : 1 ≤ capacity)
    (calls : List Call) (hfew : (writes calls).length < 2 ^ 64) :
    (∀ id readings, (((new inner ttl capacity).afterCalls calls).closeNodesBy id readings).1
      = CloseNodes.closeNodes ((writes calls).foldl TableOp.apply inner) id)
    ∧ (∀ id readings, ∃ before after, calls = before ++ after
      ∧ (((ttlOnly inner ttl capacity).afterCalls calls).closeNodesBy id readings).1
        = CloseNodes.closeNodes ((writes before).foldl TableOp.apply inner) id
      ∧ (∀ c, Call.write (.remove c) ∉ after)
      ∧ ((ttlOnly inner ttl capacity).afterCalls before).now
        ≤ ((ttlOnly inner ttl capacity).afterCalls calls).now
      ∧ (after = [] ∨ ((ttlOnly inner ttl capacity).afterCalls calls).now + readings.looking
        < ((ttlOnly inner ttl capacity).afterCalls before).now + ttl))
    ∧ ∀ invalidateOnWrite,
      ((build inner ttl capacity invalidateOnWrite).afterCalls calls).inner
        = (writes calls).foldl TableOp.apply inner
      ∧ ((build inner ttl capacity invalidateOnWrite).afterCalls calls).entries.length
        ≤ capacity := by
  refine ⟨fun id readings => ?_, fun id readings => ?_, fun invalidateOnWrite => ?_⟩
  · obtain ⟨before, after, rfl, heq, hcounts, -⟩ :=
      closeNodesBy_eq (new inner ttl capacity) rfl hfew id readings
    -- every write counts, so there was none
    have hnone : writes after = [] :=
      List.eq_nil_iff_forall_not_mem.mpr fun op hop => by
        have hop := hcounts op hop
        cases op <;> cases hop
    have hwrites : writes (before ++ after) = writes before := by
      rw [writes_append, hnone, List.append_nil]
    rw [heq, (tracks_afterCalls _ before).inner, hwrites]
    rfl
  · obtain ⟨before, after, rfl, heq, hcounts, hage⟩ :=
      closeNodesBy_eq (ttlOnly inner ttl capacity) rfl hfew id readings
    refine ⟨before, after, rfl, ?_, fun c hc => ?_, ?_, hage.imp_right fun hage => ?_⟩
    · rw [heq, (tracks_afterCalls _ before).inner]
      rfl
    · have hop : TableOp.remove c ∈ writes after := List.mem_filterMap.mpr ⟨_, hc, rfl⟩
      cases hcounts _ hop
    · rw [afterCalls_append]
      exact now_le_afterCalls _ after
    · have httl : (ttlOnly inner ttl capacity).ttl = ttl := rfl
      omega
  · have hbuild := build_eq inner ttl capacity invalidateOnWrite
    refine ⟨?_, ?_⟩
    · rw [(tracks_afterCalls _ calls).inner, hbuild]
    · have hlen := length_entries_le (build inner ttl capacity invalidateOnWrite)
        (by rw [hbuild]) (by rw [hbuild]; exact hcapacity) calls
      rwa [hbuild] at hlen ⊢

namespace Sample

/-- The table is asked, and then learns of a contact. -/
def learned : List Call := [.closeNodes known.id .still, .write (.maybeAdd known)]

end Sample

/-- The next query returns the contact, and would not where offers do not count. -/
theorem cache_transparent_sample :
    (((new (⟨[]⟩ : DumbBucket) 60 1).afterCalls Sample.learned).closeNodesBy
      Sample.known.id .still).1 = [Sample.known]
    ∧ (((ttlOnly (⟨[]⟩ : DumbBucket) 60 1).afterCalls Sample.learned).closeNodesBy
      Sample.known.id .still).1 = [] := by
  obtain ⟨hnew, -, -⟩ :=
    cache_transparent (⟨[]⟩ : DumbBucket) 60 1 le_rfl Sample.learned (by decide)
  exact ⟨(hnew Sample.known.id .still).trans (by decide +kernel), by decide +kernel⟩

end CachedCloseNodes

end Kademlia
