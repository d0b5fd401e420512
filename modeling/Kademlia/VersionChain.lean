import Kademlia.Package

/-!
# Walking and validating a version history

A latest pointer names the newest record of a package. The walk fetches that
record, checks it, and follows the record it names, down to the first. What
fetches is not trusted and may answer differently each time, so it is a
function on a state of its own: a network, or the records that came with a
request.

A *valid chain* (`ValidChain`) says what an accepted history is, without the
walk: linked by key from the pointer's record to the reserved key, every
record genuine, versions decreasing from the pointer's. A walk that succeeds
returns a valid chain, whatever the fetches answered (`walkChain_ok`), and a
valid chain whose records are all there is what the walk returns
(`walkFrom_complete`). Validating the records of a request combines the
two: it accepts exactly the rearrangements of a valid chain.
-/

namespace Kademlia

/-- The reserved key that ends a chain. -/
def endOfChain : Key := List.Vector.replicate idBytes 0

/-- How many records a history may have. -/
def maxChainLength : ℕ := 10000

/-- Why a history was refused. -/
inductive ChainError where
  /-- The domain has no key in DNS. -/
  | noDnsKey
  /-- There is no latest pointer. -/
  | noLatestPointer
  /-- The pointer is for something else, or not signed by the owner. -/
  | invalidLatestPointer
  /-- A record could not be fetched. -/
  | missingRecord (key : Key)
  /-- What was fetched does not hash to its key. -/
  | hashMismatch (key : Key)
  /-- What was fetched is not a record. -/
  | invalidEncoding (key : Key)
  /-- The record is for something else, or not signed by the owner. -/
  | invalidRecord (key : Key)
  /-- The newest record is not of the pointer's version. -/
  | headVersionMismatch
  /-- A record is not older than the one that names it. -/
  | nonDecreasingVersion
  /-- The links run in a circle. -/
  | cycle (key : Key)
  /-- There are more records than allowed. -/
  | tooManyVersions
  /-- There are no records. -/
  | emptyChain
  /-- The records are not all of one package. -/
  | differentPackage
  /-- Records came that are not part of the history. -/
  | unexpectedRecords
deriving DecidableEq

section Walk

variable (crypto : Crypto) (latest : Signed LatestPointer) (owner : VerifyingKey)
  (domain package : String)

/-- Check the bytes fetched for a key: they hash to it, they are a record
that encodes to them again, the record is the owner's and of this package,
and its version fits below the one before. -/
def readRecord (current : Key) (newer : Option Version) (bytes : List UInt8) :
    Except ChainError (Signed VersionRecord) :=
  if keyForValue crypto bytes ≠ current then .error (.hashMismatch current)
  else
    match (deserialize bytes : Option (Signed VersionRecord)) with
    | none => .error (.invalidEncoding current)
    | some record =>
      if recordKey crypto record ≠ some current ∨ record.body.tag ≠ versionRecordTag
          ∨ record.body.domain ≠ domain ∨ record.body.package ≠ package
          ∨ ¬ record.verify crypto owner = true then .error (.invalidRecord current)
      else
        match newer with
        | none =>
          if record.body.version ≠ latest.body.version then .error .headVersionMismatch
          else .ok record
        | some newer =>
          if newer ≤ record.body.version then .error .nonDecreasingVersion else .ok record

variable {σ : Type} (fetch : σ → Key → Option (List UInt8) × σ)

/-- The loop of the walk. `room` is how many records still fit, `chain` what
was verified so far, newest first. -/
def walkFrom : (room : ℕ) → (current : Key) → (seen : List Key) →
    (newer : Option Version) → (chain : List (Signed VersionRecord)) → σ →
    Except ChainError (List (Signed VersionRecord)) × σ
  | 0, _, _, _, _, s => (.error .tooManyVersions, s)
  | room + 1, current, seen, newer, chain, s =>
    if current ∈ seen then (.error (.cycle current), s)
    else
      match fetch s current with
      | (none, s) => (.error (.missingRecord current), s)
      | (some bytes, s) =>
        match readRecord crypto latest owner domain package current newer bytes with
        | .error e => (.error e, s)
        | .ok record =>
          if record.body.prev = endOfChain then (.ok (chain ++ [record]), s)
          else walkFrom room record.body.prev (current :: seen) (some record.body.version)
            (chain ++ [record]) s

/-- Follow and verify the history of a latest pointer, newest first. -/
def walkChain (s : σ) : Except ChainError (List (Signed VersionRecord)) × σ :=
  if latest.body.domain ≠ domain ∨ latest.body.package ≠ package
      ∨ ¬ latestIsValid crypto latest owner = true
      ∨ latest.body.versionRecordHash = endOfChain then (.error .invalidLatestPointer, s)
  else walkFrom crypto latest owner domain package fetch maxChainLength
    latest.body.versionRecordHash [] none [] s

end Walk

section Validate

variable (crypto : Crypto)

/-- Put the records of a request in a map by key, refusing one that comes
twice. -/
def indexRecords : List (Signed VersionRecord) → (Key → Option (List UInt8)) →
    Except ChainError (Key → Option (List UInt8))
  | [], records => .ok records
  | record :: proof, records =>
    match recordKey crypto record with
    | none => .error (.invalidEncoding endOfChain)
    | some key =>
      match serialize record with
      | none => .error (.invalidEncoding key)
      | some bytes =>
        if (records key).isSome then .error .unexpectedRecords
        else indexRecords proof (Function.update records key (some bytes))

/-- Validate the complete history that came with a request. Returns it
newest first. -/
def validateChainProof (latest : Signed LatestPointer) (owner : VerifyingKey)
    (proof : List (Signed VersionRecord)) : Except ChainError (List (Signed VersionRecord)) :=
  if maxChainLength < proof.length then .error .tooManyVersions
  else
    match indexRecords crypto proof (fun _ => none) with
    | .error e => .error e
    | .ok records =>
      match (walkChain crypto latest owner latest.body.domain latest.body.package
          (fun (_ : Unit) key => (records key, ())) ()).1 with
      | .error e => .error e
      | .ok validated =>
        if validated.length ≠ proof.length then .error .unexpectedRecords else .ok validated

end Validate

/-! ## Valid chains

What the walk is for, said without it. A `History` of a package is linked from
a key, and a `ValidChain` is a history linked from the key a valid pointer
names, whose newest record has the pointer's version. Both mention the owner's
public key, since a record is genuine under a key. -/

variable {crypto : Crypto}

/-- A record of this package, signed by its owner. -/
structure Genuine (crypto : Crypto) (owner : VerifyingKey) (domain package : String)
    (record : Signed VersionRecord) : Prop where
  /-- It is tagged as a version record. -/
  tag : record.body.tag = versionRecordTag
  /-- It is of the domain. -/
  domain : record.body.domain = domain
  /-- It is of the package. -/
  package : record.body.package = package
  /-- Its signature is the owner's. -/
  verify : record.verify crypto owner = true

/-- **A history of a package**: at most so many records of the owner, linked
from a key to the reserved one, with decreasing versions. -/
structure History (crypto : Crypto) (owner : VerifyingKey) (domain package : String)
    (head : Key) (chain : List (Signed VersionRecord)) : Prop where
  /-- There are not too many records. -/
  length_le : chain.length ≤ maxChainLength
  /-- Every record is the owner's, and of the package. -/
  genuine : ∀ record ∈ chain, Genuine crypto owner domain package record
  /-- Each record has the key its successor names; the last names none. -/
  linked : HashChain.Linked (recordKey crypto) (fun r => r.body.prev) endOfChain head chain
  /-- Versions strictly decrease. -/
  decreasing : chain.Pairwise (fun r s => s.body.version < r.body.version)

/-- **A valid chain of a latest pointer.** -/
structure ValidChain (crypto : Crypto) (pointer : Signed LatestPointer) (owner : VerifyingKey)
    (chain : List (Signed VersionRecord)) : Prop
    extends History crypto owner pointer.body.domain pointer.body.package
      pointer.body.versionRecordHash chain where
  /-- The pointer is the owner's. -/
  pointer_valid : latestIsValid crypto pointer owner = true
  /-- The newest record is of the pointer's version. -/
  head_version : ∀ record ∈ chain.head?, record.body.version = pointer.body.version

/-! ## What a step of the walk checks

A round of the walk fetches bytes for a key it was given, and everything it
knows of them it has checked itself: that they hash to the key, that they
decode to a record which encodes to them, that the record is the owner's, of
this package, and of a version that fits. What the fetch is, and whether it
answers the same twice, does not matter. -/

section Step

variable {latest : Signed LatestPointer} {owner : VerifyingKey} {domain package : String}

/-- The version a record may have: the pointer's at the head, and below the
one before further on. -/
def Fits (latest : Signed LatestPointer) : Option Version → Version → Prop
  | none, version => version = latest.body.version
  | some newer, version => version < newer

/-- The checks of a record against its key and its owner fail exactly when it
is not a genuine record of that key. -/
theorem refused_iff {current : Key} {r : Signed VersionRecord} :
    (recordKey crypto r ≠ some current ∨ r.body.tag ≠ versionRecordTag
        ∨ r.body.domain ≠ domain ∨ r.body.package ≠ package
        ∨ ¬ r.verify crypto owner = true)
      ↔ ¬ (recordKey crypto r = some current ∧ Genuine crypto owner domain package r) := by
  have hgen : Genuine crypto owner domain package r ↔ r.body.tag = versionRecordTag
      ∧ r.body.domain = domain ∧ r.body.package = package ∧ r.verify crypto owner = true :=
    ⟨fun ⟨htag, hdom, hpkg, hver⟩ => ⟨htag, hdom, hpkg, hver⟩,
      fun ⟨htag, hdom, hpkg, hver⟩ => ⟨htag, hdom, hpkg, hver⟩⟩
  rw [hgen]
  simp only [not_and_or, ne_eq]

/-- The check of a record's version passes exactly when the version fits. -/
theorem versionCheck_ok_iff {newer : Option Version} {r record : Signed VersionRecord} :
    (match newer with
      | none => if r.body.version ≠ latest.body.version
          then (.error .headVersionMismatch : Except ChainError (Signed VersionRecord))
          else .ok r
      | some newer => if newer ≤ r.body.version then .error .nonDecreasingVersion
          else .ok r) = .ok record
      ↔ r = record ∧ Fits latest newer r.body.version := by
  cases newer with
  | none =>
    show (if r.body.version ≠ latest.body.version then _ else _) = _ ↔ _
    unfold Fits
    by_cases hv : r.body.version = latest.body.version
    · rw [if_neg (not_not.mpr hv), Except.ok.injEq, and_iff_left hv]
    · rw [if_pos hv]
      exact ⟨fun h => (nomatch h), fun h => absurd h.2 hv⟩
  | some newer =>
    show (if newer ≤ r.body.version then _ else _) = _ ↔ _
    unfold Fits
    by_cases hle : newer ≤ r.body.version
    · rw [if_pos hle]
      exact ⟨fun h => (nomatch h), fun h => absurd hle (not_le.mpr h.2)⟩
    · rw [if_neg hle, Except.ok.injEq, and_iff_left (not_le.mp hle)]

/-- **What the check of a record asks for.** Both directions are used: what
passed is genuine, and what is genuine and fits passes. -/
theorem readRecord_ok_iff {current : Key} {newer : Option Version} {bytes : List UInt8}
    {record : Signed VersionRecord} :
    readRecord crypto latest owner domain package current newer bytes = .ok record
      ↔ keyForValue crypto bytes = current ∧ deserialize bytes = some record
        ∧ recordKey crypto record = some current
        ∧ Genuine crypto owner domain package record ∧ Fits latest newer record.body.version := by
  unfold readRecord
  by_cases hkey : keyForValue crypto bytes = current
  swap
  · rw [if_pos hkey]
    exact ⟨fun h => (nomatch h), fun h => absurd h.1 hkey⟩
  rw [if_neg (not_not.mpr hkey), and_iff_right hkey]
  cases hdec : (deserialize bytes : Option (Signed VersionRecord)) with
  | none => exact ⟨fun h => (nomatch h), fun h => (nomatch h.1)⟩
  | some r =>
    dsimp only
    by_cases hgen : recordKey crypto r = some current ∧ Genuine crypto owner domain package r
    · rw [if_neg (fun hbad => refused_iff.mp hbad hgen)]
      refine versionCheck_ok_iff.trans ⟨?_, ?_⟩
      · rintro ⟨rfl, hfit⟩
        exact ⟨rfl, hgen.1, hgen.2, hfit⟩
      · rintro ⟨hr, -, -, hfit⟩
        obtain rfl := Option.some.inj hr
        exact ⟨rfl, hfit⟩
    · rw [if_pos (refused_iff.mpr hgen)]
      refine ⟨fun h => (nomatch h), fun h => ?_⟩
      obtain rfl := Option.some.inj h.1
      exact absurd ⟨h.2.1, h.2.2.1⟩ hgen

variable {σ : Type} {fetch : σ → Key → Option (List UInt8) × σ}

/-- **One round of a walk that succeeds**: a record is fetched and passes,
and either ends the chain or names the key of the next round. -/
theorem walkFrom_succ_ok {room : ℕ} {current : Key} {seen : List Key} {newer : Option Version}
    {chain out : List (Signed VersionRecord)} {s s' : σ}
    (h : walkFrom crypto latest owner domain package fetch (room + 1) current seen newer chain s
      = (.ok out, s')) :
    current ∉ seen ∧ ∃ bytes s₁ record, fetch s current = (some bytes, s₁)
      ∧ readRecord crypto latest owner domain package current newer bytes = .ok record
      ∧ ((record.body.prev = endOfChain ∧ out = chain ++ [record])
        ∨ (record.body.prev ≠ endOfChain
          ∧ walkFrom crypto latest owner domain package fetch room record.body.prev
              (current :: seen) (some record.body.version) (chain ++ [record]) s₁
            = (.ok out, s'))) := by
  unfold walkFrom at h
  split at h
  · cases h
  · next hseen =>
    refine ⟨hseen, ?_⟩
    split at h
    · cases h
    · next bytes s₁ hfetch =>
      split at h
      · cases h
      · next record hread =>
        refine ⟨bytes, s₁, record, hfetch, hread, ?_⟩
        split at h
        · next hend =>
          cases h
          exact Or.inl ⟨hend, rfl⟩
        · next hend => exact Or.inr ⟨hend, h⟩

/-- Versions that fit one below the other, from a starting point. -/
def Descends (latest : Signed LatestPointer) :
    Option Version → List (Signed VersionRecord) → Prop
  | _, [] => True
  | newer, record :: chain =>
    Fits latest newer record.body.version ∧ Descends latest (some record.body.version) chain

theorem descends_some_iff {v : Version} {chain : List (Signed VersionRecord)} :
    Descends latest (some v) chain
      ↔ (∀ r ∈ chain, r.body.version < v)
        ∧ chain.Pairwise (fun r s => s.body.version < r.body.version) := by
  induction chain generalizing v with
  | nil => exact ⟨fun _ => ⟨fun _ hr => absurd hr List.not_mem_nil, List.Pairwise.nil⟩,
      fun _ => trivial⟩
  | cons record chain ih =>
    unfold Descends Fits
    rw [ih, List.pairwise_cons, List.forall_mem_cons]
    constructor
    · rintro ⟨hv, hbelow, hpair⟩
      exact ⟨⟨hv, fun r hr => (hbelow r hr).trans hv⟩, hbelow, hpair⟩
    · rintro ⟨⟨hv, -⟩, hbelow, hpair⟩
      exact ⟨hv, hbelow, hpair⟩

/-- Descending from the pointer's version. -/
theorem descends_none_iff {chain : List (Signed VersionRecord)} :
    Descends latest none chain
      ↔ (∀ r ∈ chain.head?, r.body.version = latest.body.version)
        ∧ chain.Pairwise (fun r s => s.body.version < r.body.version) := by
  cases chain with
  | nil => exact ⟨fun _ => ⟨fun _ hr => (nomatch hr), List.Pairwise.nil⟩, fun _ => trivial⟩
  | cons record chain =>
    unfold Descends Fits
    rw [descends_some_iff, List.pairwise_cons, List.head?_cons]
    exact and_congr_left (fun _ => ⟨fun hv r hr => Option.some.inj hr ▸ hv, fun hv => hv _ rfl⟩)

/-- **What a walk that succeeds has found**: a linked list of genuine records
with descending versions, every one of them decoded from fetched bytes. By
induction on the room left: a round adds one record on top of the list linked
from the key it names. -/
theorem walkFrom_ok {room : ℕ} {current : Key} {seen : List Key} {newer : Option Version}
    {chain out : List (Signed VersionRecord)} {s s' : σ}
    (h : walkFrom crypto latest owner domain package fetch room current seen newer chain s
      = (.ok out, s')) :
    ∃ tail, out = chain ++ tail ∧ tail.length ≤ room
      ∧ (∀ r ∈ tail, Genuine crypto owner domain package r)
      ∧ HashChain.Linked (recordKey crypto) (fun r => r.body.prev) endOfChain current tail
      ∧ Descends latest newer tail
      ∧ ∀ r ∈ tail, ∃ s₀ key bytes s₁,
          fetch s₀ key = (some bytes, s₁) ∧ deserialize bytes = some r := by
  -- on the room left; what was verified before stays in front
  induction room generalizing current seen newer chain s with
  | zero => cases h
  | succ room ih =>
    obtain ⟨-, bytes, s₁, record, hfetch, hread, hnext⟩ := walkFrom_succ_ok h
    obtain ⟨-, hdec, hkey, hgen, hfit⟩ := readRecord_ok_iff.mp hread
    have hsource : ∃ s₀ key bytes s₁,
        fetch s₀ key = (some bytes, s₁) ∧ deserialize bytes = some record :=
      ⟨s, current, bytes, s₁, hfetch, hdec⟩
    rcases hnext with ⟨hend, rfl⟩ | ⟨hend, hwalk⟩
    · exact ⟨[record], rfl, Nat.le_add_left 1 room, List.forall_mem_singleton.mpr hgen,
        .last hkey hend, ⟨hfit, trivial⟩, List.forall_mem_singleton.mpr hsource⟩
    · obtain ⟨tail, rfl, hlen, hall, hlink, hdesc, hfrom⟩ := ih hwalk
      exact ⟨record :: tail, by rw [List.append_assoc]; rfl, Nat.succ_le_succ hlen,
        List.forall_mem_cons.mpr ⟨hgen, hall⟩, .cons hkey hend hlink, ⟨hfit, hdesc⟩,
        List.forall_mem_cons.mpr ⟨hsource, hfrom⟩⟩

/-- The keys of the records a walk adds differ, among themselves and from
those seen before. -/
theorem walkFrom_distinct {room : ℕ} {current : Key} {seen : List Key} {newer : Option Version}
    {chain out : List (Signed VersionRecord)} {s s' : σ}
    (h : walkFrom crypto latest owner domain package fetch room current seen newer chain s
      = (.ok out, s')) :
    ∃ tail, out = chain ++ tail ∧ (∀ r ∈ tail, ∀ key ∈ seen, recordKey crypto r ≠ some key)
      ∧ tail.Pairwise (fun r r' => recordKey crypto r ≠ recordKey crypto r') := by
  induction room generalizing current seen newer chain s with
  | zero => cases h
  | succ room ih =>
    obtain ⟨hseen, bytes, s₁, record, -, hread, hnext⟩ := walkFrom_succ_ok h
    obtain ⟨-, -, hkey, -, -⟩ := readRecord_ok_iff.mp hread
    have hfresh : ∀ key ∈ seen, recordKey crypto record ≠ some key := fun key hin heq =>
      hseen (Option.some.inj (hkey.symm.trans heq) ▸ hin)
    rcases hnext with ⟨-, rfl⟩ | ⟨-, hwalk⟩
    · exact ⟨[record], rfl, List.forall_mem_singleton.mpr hfresh, List.pairwise_singleton _ _⟩
    · obtain ⟨tail, rfl, hunseen, hdistinct⟩ := ih hwalk
      refine ⟨record :: tail, by rw [List.append_assoc]; rfl, ?_, ?_⟩
      · exact List.forall_mem_cons.mpr ⟨hfresh, fun r hr key hin =>
          hunseen r hr key (List.mem_cons_of_mem _ hin)⟩
      · refine List.pairwise_cons.mpr ⟨fun r hr heq => ?_, hdistinct⟩
        exact hunseen r hr current List.mem_cons_self (heq ▸ hkey)

/-- **A walk that succeeds returns a valid chain of the pointer**, whatever the
fetches answered. The walk starts at the key the pointer names, with the
pointer's version for the head, and with room for as many records as a history
may have. -/
theorem walkChain_ok {chain : List (Signed VersionRecord)} {s s' : σ}
    (h : walkChain crypto latest owner domain package fetch s = (.ok chain, s')) :
    latest.body.domain = domain ∧ latest.body.package = package
      ∧ latest.body.versionRecordHash ≠ endOfChain ∧ ValidChain crypto latest owner chain
      ∧ ∀ r ∈ chain, ∃ s₀ key bytes s₁,
          fetch s₀ key = (some bytes, s₁) ∧ deserialize bytes = some r := by
  unfold walkChain at h
  split at h
  · cases h
  · next hpre =>
    simp only [not_or, not_not] at hpre
    obtain ⟨hdom, hpkg, hvalid, hhead⟩ := hpre
    obtain ⟨tail, rfl, hlen, hall, hlink, hdesc, hfrom⟩ := walkFrom_ok h
    obtain ⟨hversion, hpair⟩ := descends_none_iff.mp hdesc
    subst hdom hpkg
    exact ⟨rfl, rfl, hhead, ⟨⟨hlen, hall, hlink, hpair⟩, hvalid, hversion⟩, hfrom⟩

/-- **It returns no key twice**, as it would have stopped there. -/
theorem walkChain_distinct {chain : List (Signed VersionRecord)} {s s' : σ}
    (h : walkChain crypto latest owner domain package fetch s = (.ok chain, s')) :
    chain.Pairwise (fun r r' => recordKey crypto r ≠ recordKey crypto r') := by
  unfold walkChain at h
  split at h
  · cases h
  · obtain ⟨tail, rfl, -, hdistinct⟩ := walkFrom_distinct h
    exact hdistinct

end Step

/-! ## A valid chain is accepted

The converse: over a map that holds all records of a valid chain under their
keys the walk runs to its end. It could only stop early at a key it has seen,
and the keys of the chain differ: where hashes do not collide because a record
does not come twice, as versions decrease. -/

/-- The key of a record that has an encoding. -/
theorem recordKey_eq {record : Signed VersionRecord} {bytes : List UInt8}
    (h : serialize record = some bytes) :
    recordKey crypto record = some (hashBytes crypto bytes) := by
  unfold recordKey
  rw [h]
  rfl

section Complete

variable {latest : Signed LatestPointer} {owner : VerifyingKey} {domain package : String}
  {records : Key → Option (List UInt8)}

/-- A round whose record passes. -/
theorem walkFrom_succ_of_read {σ : Type} {fetch : σ → Key → Option (List UInt8) × σ}
    {room : ℕ} {current : Key} {seen : List Key} {newer : Option Version}
    {chain : List (Signed VersionRecord)} {s s₁ : σ} {bytes : List UInt8}
    {record : Signed VersionRecord} (hseen : current ∉ seen)
    (hfetch : fetch s current = (some bytes, s₁))
    (hread : readRecord crypto latest owner domain package current newer bytes = .ok record) :
    walkFrom crypto latest owner domain package fetch (room + 1) current seen newer chain s
      = if record.body.prev = endOfChain then (.ok (chain ++ [record]), s₁)
        else walkFrom crypto latest owner domain package fetch room record.body.prev
          (current :: seen) (some record.body.version) (chain ++ [record]) s₁ := by
  conv_lhs => unfold walkFrom
  rw [if_neg hseen, hfetch]
  dsimp only
  rw [hread]

/-- **A walk over records that are all there returns them.** By induction on
the chain that is left: its head is fetched, passes the check, and is not one
that was seen. -/
theorem walkFrom_complete {room : ℕ} {current : Key} {seen : List Key} {newer : Option Version}
    {chain tail : List (Signed VersionRecord)}
    (hlink : HashChain.Linked (recordKey crypto) (fun r => r.body.prev) endOfChain current tail)
    (hlen : tail.length ≤ room) (hgen : ∀ r ∈ tail, Genuine crypto owner domain package r)
    (hdesc : Descends latest newer tail)
    (hthere : ∀ r ∈ tail, ∃ bytes, serialize r = some bytes
      ∧ records (hashBytes crypto bytes) = some bytes)
    (hseen : ∀ r ∈ tail, ∀ key ∈ seen, recordKey crypto r ≠ some key)
    (hdistinct : tail.Pairwise (fun r r' => recordKey crypto r ≠ recordKey crypto r')) :
    walkFrom crypto latest owner domain package (fun (_ : Unit) key => (records key, ())) room
      current seen newer chain () = (.ok (chain ++ tail), ()) := by
  -- along the links: the records below are still to come, and none was seen
  induction hlink generalizing room seen newer chain with
  | @last current record hkey hend =>
    obtain ⟨room, rfl⟩ : ∃ n, room = n + 1 := ⟨room - 1, (Nat.sub_add_cancel hlen).symm⟩
    obtain ⟨bytes, hser, hget⟩ := hthere record List.mem_cons_self
    obtain rfl : hashBytes crypto bytes = current :=
      Option.some.inj ((recordKey_eq hser).symm.trans hkey)
    rw [walkFrom_succ_of_read (fun hin => hseen record List.mem_cons_self _ hin hkey)
      (by rw [hget]) (readRecord_ok_iff.mpr ⟨rfl, deserialize_serialize hser, hkey,
        hgen record List.mem_cons_self, hdesc.1⟩), if_pos hend]
  | @cons current record tail hkey hend _ ih =>
    obtain ⟨room, rfl⟩ : ∃ n, room = n + 1 :=
      ⟨room - 1, (Nat.sub_add_cancel ((Nat.le_add_left 1 _).trans hlen)).symm⟩
    obtain ⟨bytes, hser, hget⟩ := hthere record List.mem_cons_self
    obtain rfl : hashBytes crypto bytes = current :=
      Option.some.inj ((recordKey_eq hser).symm.trans hkey)
    obtain ⟨hne, hdistinct⟩ := List.pairwise_cons.mp hdistinct
    rw [walkFrom_succ_of_read (fun hin => hseen record List.mem_cons_self _ hin hkey)
      (by rw [hget]) (readRecord_ok_iff.mpr ⟨rfl, deserialize_serialize hser, hkey,
        hgen record List.mem_cons_self, hdesc.1⟩), if_neg hend,
      ih (Nat.le_of_succ_le_succ hlen) (fun r hr => hgen r (List.mem_cons_of_mem _ hr))
        hdesc.2 (fun r hr => hthere r (List.mem_cons_of_mem _ hr)) ?_ hdistinct,
      List.append_assoc]
    · rfl
    · intro r hr key hin
      rcases List.mem_cons.mp hin with rfl | hin
      · exact fun hrk => hne r hr (hkey.trans hrk.symm)
      · exact hseen r (List.mem_cons_of_mem _ hr) key hin

/-- What the map of a request's records holds comes from the request. -/
theorem indexRecords_ok {proof : List (Signed VersionRecord)}
    {records out : Key → Option (List UInt8)}
    (h : indexRecords crypto proof records = .ok out) {key : Key} {bytes : List UInt8}
    (hget : out key = some bytes) :
    records key = some bytes ∨ ∃ r ∈ proof, serialize r = some bytes := by
  induction proof generalizing records with
  | nil =>
    cases h
    exact Or.inl hget
  | cons record proof ih =>
    unfold indexRecords at h
    split at h
    · cases h
    · next k _ =>
      split at h
      · cases h
      · next bs hser =>
        split at h
        · cases h
        · rcases ih h with hin | ⟨r, hr, hin⟩
          · by_cases hk : key = k
            · rw [hk, Function.update_self] at hin
              exact Or.inr ⟨record, List.mem_cons_self, hin ▸ hser⟩
            · rw [Function.update_of_ne hk] at hin
              exact Or.inl hin
          · exact Or.inr ⟨r, List.mem_cons_of_mem _ hr, hin⟩

/-- **Records with encodings and distinct keys are all put in the map.** -/
theorem indexRecords_complete {proof : List (Signed VersionRecord)}
    (records : Key → Option (List UInt8))
    (hser : ∀ r ∈ proof, ∃ bytes, serialize r = some bytes)
    (hdistinct : proof.Pairwise (fun r r' => recordKey crypto r ≠ recordKey crypto r'))
    (hfresh : ∀ r ∈ proof, ∀ key, recordKey crypto r = some key → records key = none) :
    ∃ out, indexRecords crypto proof records = .ok out
      ∧ (∀ r ∈ proof, ∀ bytes, serialize r = some bytes →
          out (hashBytes crypto bytes) = some bytes)
      ∧ ∀ key, (∀ r ∈ proof, recordKey crypto r ≠ some key) → out key = records key := by
  induction proof generalizing records with
  | nil => exact ⟨records, rfl, fun _ hr => absurd hr List.not_mem_nil, fun _ _ => rfl⟩
  | cons record proof ih =>
    obtain ⟨bytes, hbytes⟩ := hser record List.mem_cons_self
    obtain ⟨hne, hdistinct⟩ := List.pairwise_cons.mp hdistinct
    have hkey : recordKey crypto record = some (hashBytes crypto bytes) := recordKey_eq hbytes
    have hfree := hfresh record List.mem_cons_self _ hkey
    have hother : ∀ r ∈ proof, recordKey crypto r ≠ some (hashBytes crypto bytes) :=
      fun r hr hrk => hne r hr (hkey.trans hrk.symm)
    obtain ⟨out, hout, hall, hrest⟩ := ih
      (Function.update records (hashBytes crypto bytes) (some bytes))
      (fun r hr => hser r (List.mem_cons_of_mem _ hr)) hdistinct
      (fun r hr key hrk => by
        have hkne : key ≠ hashBytes crypto bytes := fun he => hother r hr (he ▸ hrk)
        rw [Function.update_of_ne hkne]
        exact hfresh r (List.mem_cons_of_mem _ hr) key hrk)
    refine ⟨out, ?_, fun r hr bs hbs => ?_, fun key hk => ?_⟩
    · unfold indexRecords
      rw [hkey, hbytes]
      dsimp only
      rw [hfree]
      exact hout
    · rcases List.mem_cons.mp hr with rfl | hr
      · obtain rfl := Option.some.inj (hbytes.symm.trans hbs)
        rw [hrest _ hother, Function.update_self]
      · exact hall r hr bs hbs
    · have hkne : key ≠ hashBytes crypto bytes := fun he =>
        hk record List.mem_cons_self (he ▸ hkey)
      rw [hrest key (fun r hr => hk r (List.mem_cons_of_mem _ hr)), Function.update_of_ne hkne]

/-- Validating succeeds exactly when the records can be put in a map and the
walk over that map uses them all. -/
theorem validateChainProof_ok_cases {proof chain : List (Signed VersionRecord)} :
    validateChainProof crypto latest owner proof = .ok chain
      ↔ proof.length ≤ maxChainLength ∧ ∃ records,
          indexRecords crypto proof (fun _ => none) = .ok records
          ∧ walkChain crypto latest owner latest.body.domain latest.body.package
              (fun (_ : Unit) key => (records key, ())) () = (.ok chain, ())
          ∧ chain.length = proof.length := by
  unfold validateChainProof
  constructor
  · intro h
    split at h
    · cases h
    · next hlen =>
      refine ⟨not_lt.mp hlen, ?_⟩
      split at h
      · cases h
      · next records hindex =>
        split at h
        · cases h
        · next validated hwalk =>
          split at h
          · cases h
          · next hall =>
            cases h
            exact ⟨records, hindex, Prod.ext hwalk rfl, not_not.mp hall⟩
  · rintro ⟨hlen, records, hindex, hwalk, hall⟩
    rw [if_neg (not_lt.mpr hlen), hindex]
    dsimp only
    rw [hwalk]
    dsimp only
    rw [if_neg (not_not.mpr hall)]

/-- **What a request proves is a valid chain, and nothing besides.** The walk
over the records of the request returns a valid chain of some of them, and as
it uses as many as there are, of all of them. -/
theorem validateChainProof_ok {proof chain : List (Signed VersionRecord)}
    (h : validateChainProof crypto latest owner proof = .ok chain) :
    ValidChain crypto latest owner chain ∧ proof.Perm chain
      ∧ latest.body.versionRecordHash ≠ endOfChain := by
  obtain ⟨-, records, hindex, hwalk, hlen⟩ := validateChainProof_ok_cases.mp h
  obtain ⟨-, -, hhead, hvalid, hfrom⟩ := walkChain_ok hwalk
  refine ⟨hvalid, ?_, hhead⟩
  have hsub : chain ⊆ proof := by
    intro r hr
    obtain ⟨_, key, bytes, _, hfetch, hdec⟩ := hfrom r hr
    obtain ⟨r', hr', hser⟩ := (indexRecords_ok hindex
      (Prod.ext_iff.mp hfetch).1).resolve_left (fun hnone => (nomatch hnone))
    rw [deserialize_serialize hser] at hdec
    exact Option.some.inj hdec ▸ hr'
  have hnodup : chain.Nodup :=
    hvalid.decreasing.imp (fun hlt he => absurd hlt (by rw [he]; exact lt_irrefl _))
  exact ((hnodup.subperm hsub).perm_of_length_le hlen.ge).symm

/-- **A valid chain in any order is accepted**, where its keys differ. -/
theorem validateChainProof_of_distinct {proof chain : List (Signed VersionRecord)}
    (hdistinct : chain.Pairwise (fun r r' => recordKey crypto r ≠ recordKey crypto r'))
    (hhead : latest.body.versionRecordHash ≠ endOfChain)
    (hvalid : ValidChain crypto latest owner chain) (hperm : proof.Perm chain) :
    validateChainProof crypto latest owner proof = .ok chain := by
  have hser : ∀ r ∈ proof, ∃ bytes, serialize r = some bytes := by
    intro r hr
    obtain ⟨key, -, hkey, -⟩ := hvalid.linked.of_mem (hperm.mem_iff.mp hr)
    obtain ⟨bytes, hbytes, -⟩ := Option.map_eq_some_iff.mp hkey
    exact ⟨bytes, hbytes⟩
  obtain ⟨records, hindex, hget, -⟩ := indexRecords_complete (fun _ => none) hser
    ((hperm.pairwise_iff (fun h => h.symm)).mpr hdistinct) (fun _ _ _ _ => rfl)
  refine validateChainProof_ok_cases.mpr
    ⟨hperm.length_eq.trans_le hvalid.length_le, records, hindex, ?_, hperm.length_eq.symm⟩
  unfold walkChain
  rw [if_neg (by simp [hvalid.pointer_valid, hhead])]
  refine walkFrom_complete hvalid.linked hvalid.length_le hvalid.genuine
    (descends_none_iff.mpr ⟨hvalid.head_version, hvalid.decreasing⟩) (fun r hr => ?_)
    (fun _ _ _ hkey => absurd hkey List.not_mem_nil) hdistinct
  obtain ⟨bytes, hbytes⟩ := hser r (hperm.mem_iff.mpr hr)
  exact ⟨bytes, hbytes, hget r (hperm.mem_iff.mpr hr) bytes hbytes⟩

/-- **So it is where keys tell its records apart**, as no record comes twice. -/
theorem validateChainProof_complete {proof chain : List (Signed VersionRecord)}
    (hinj : Set.InjOn crypto.sha256 (encodings {r | r ∈ proof}))
    (hhead : latest.body.versionRecordHash ≠ endOfChain)
    (hvalid : ValidChain crypto latest owner chain) (hperm : proof.Perm chain) :
    validateChainProof crypto latest owner proof = .ok chain := by
  refine validateChainProof_of_distinct ?_ hhead hvalid hperm
  refine hvalid.decreasing.imp_of_mem (fun {r r'} hr hr' hlt he => ?_)
  obtain ⟨key, -, hkey, -⟩ := hvalid.linked.of_mem hr
  have heq := keyInjOn_recordKey hinj r (hperm.mem_iff.mpr hr) r' (hperm.mem_iff.mpr hr') key
    hkey (he ▸ hkey)
  rw [heq] at hlt
  exact lt_irrefl _ hlt

/-- **A history that was walked validates as it is**, records in the order
they were found. -/
theorem validateChainProof_of_walkChain {σ : Type} {fetch : σ → Key → Option (List UInt8) × σ}
    {chain : List (Signed VersionRecord)} {s s' : σ}
    (h : walkChain crypto latest owner domain package fetch s = (.ok chain, s')) :
    validateChainProof crypto latest owner chain = .ok chain := by
  obtain ⟨-, -, hhead, hvalid, -⟩ := walkChain_ok h
  exact validateChainProof_of_distinct (walkChain_distinct h) hhead hvalid (List.Perm.refl _)

/-- **Exactly the rearrangements of a valid chain are accepted**, and
everything else is refused. The order in which records come does not matter, as
the walk follows the links. A record too many makes the lengths differ, a
record too few stops the walk, and one that comes twice is refused when the map
is filled.

Hashes must not collide on the records of the request, and none of the records
may have the reserved key. A record of that key could be in no chain but as its
head, and a pointer to it is refused. -/
theorem validateChainProof_ok_iff (crypto : Crypto) (pointer : Signed LatestPointer)
    (owner : VerifyingKey) (proof : List (Signed VersionRecord))
    (hinj : Set.InjOn crypto.sha256 (encodings {r | r ∈ proof}))
    (hzero : ∀ r ∈ proof, recordKey crypto r ≠ some endOfChain) :
    (∀ chain, validateChainProof crypto pointer owner proof = .ok chain
        ↔ ValidChain crypto pointer owner chain ∧ proof.Perm chain ∧ proof.Nodup)
      ∧ ((¬ ∃ chain, ValidChain crypto pointer owner chain ∧ proof.Perm chain ∧ proof.Nodup) →
        ∃ e, validateChainProof crypto pointer owner proof = .error e) := by
  have hiff : ∀ chain, validateChainProof crypto pointer owner proof = .ok chain
      ↔ ValidChain crypto pointer owner chain ∧ proof.Perm chain ∧ proof.Nodup := by
    intro chain
    constructor
    · intro h
      obtain ⟨hvalid, hperm, -⟩ := validateChainProof_ok h
      refine ⟨hvalid, hperm, hperm.nodup_iff.mpr ?_⟩
      exact hvalid.decreasing.imp (fun hlt he => absurd hlt (by rw [he]; exact lt_irrefl _))
    · rintro ⟨hvalid, hperm, -⟩
      obtain ⟨record, hrec, hkey⟩ := hvalid.linked.key_head
      refine validateChainProof_complete hinj (fun hend => ?_) hvalid hperm
      exact hzero record (hperm.mem_iff.mpr (List.mem_of_mem_head? hrec)) (hend ▸ hkey)
  refine ⟨hiff, fun hno => ?_⟩
  cases hres : validateChainProof crypto pointer owner proof with
  | error e => exact ⟨e, rfl⟩
  | ok chain => exact absurd ⟨chain, (hiff chain).mp hres⟩ hno

/-- The sample history, its records in the wrong order. -/
theorem validateChainProof_ok_iff_sample :
    Set.InjOn Sample.crypto.sha256 (encodings {r | r ∈ [Sample.first, Sample.second]})
      ∧ (∀ r ∈ [Sample.first, Sample.second], recordKey Sample.crypto r ≠ some endOfChain)
      ∧ ValidChain Sample.crypto Sample.secondPointer Sample.owner
        [Sample.second, Sample.first] := by
  have hinj : Set.InjOn Sample.crypto.sha256
      (encodings {r | r ∈ [Sample.first, Sample.second]}) :=
    Sample.injOn_encodings (by decide +kernel)
  have hzero : ∀ r ∈ [Sample.first, Sample.second],
      recordKey Sample.crypto r ≠ some endOfChain := by decide +kernel
  refine ⟨hinj, hzero, ?_⟩
  exact ((validateChainProof_ok_iff Sample.crypto Sample.secondPointer Sample.owner _ hinj
    hzero).1 _ |>.mp (by decide +kernel)).1

end Complete

/-! ## A key determines the history below it

Whoever remembers the key of a record has remembered the whole history below
it, since every record names the key of the one before. -/

/-- The records of two chains, for which keys have to differ. -/
def recordsOf (chain chain' : List (Signed VersionRecord)) : Set (Signed VersionRecord) :=
  {r | r ∈ chain ∨ r ∈ chain'}

/-- The keys of the sample's two versions differ. -/
theorem Sample.injOn_recordsOf : Set.InjOn Sample.crypto.sha256
    (encodings (recordsOf [Sample.second, Sample.first] [Sample.first])) := by
  have hinj : Set.InjOn Sample.crypto.sha256
      (encodings {r | r ∈ [Sample.second, Sample.first]}) :=
    Sample.injOn_encodings (by decide +kernel)
  refine hinj.mono (encodings_mono ?_)
  rintro r (hr | hr)
  · exact hr
  · exact List.mem_cons_of_mem _ hr

section Unique

variable {owner owner' : VerifyingKey} {domain domain' package package' : String}
  {head head' : Key} {chain chain' : List (Signed VersionRecord)}

/-- **Two histories from one key are one**, whoever vouches for them. Only the
links are used, and that hashes do not collide on the records of the two. -/
theorem History.unique
    (hinj : Set.InjOn crypto.sha256 (encodings (recordsOf chain chain')))
    (h : History crypto owner domain package head chain)
    (h' : History crypto owner' domain' package' head chain') : chain = chain' :=
  h.linked.unique (keyInjOn_recordKey hinj) h'.linked (fun _ => Or.inl) (fun _ => Or.inr)

/-- **A history that contains the record of a key contains the history below
that key**, as a suffix. -/
theorem History.suffix_of_mem
    (hinj : Set.InjOn crypto.sha256 (encodings (recordsOf chain chain')))
    (h : History crypto owner domain package head chain)
    (h' : History crypto owner' domain' package' head' chain')
    {record : Signed VersionRecord} (hmem : record ∈ chain)
    (hkey : recordKey crypto record = some head') : chain' <:+ chain :=
  h.linked.suffix_of_mem (keyInjOn_recordKey hinj) h'.linked (fun _ => Or.inl)
    (fun _ => Or.inr) hmem hkey

end Unique

/-! ## Comparing histories

A node that holds a history and is offered another has to tell an update from a
replay and a replay from a conflict. Histories are lists with the newest record
first, so each of these is a statement about suffixes. -/

/-- How a proposed history relates to a stored one. -/
inductive ChainRelation where
  /-- They are the same. -/
  | same
  /-- The proposed one extends the stored one. -/
  | extension
  /-- The proposed one is an older part of the stored one. -/
  | rollback
  /-- Neither continues the other. -/
  | fork
deriving DecidableEq

/-- Compare two histories, which have to be of one package. -/
def compareChains (stored proposed : List (Signed VersionRecord)) :
    Except ChainError ChainRelation :=
  match stored, proposed with
  | first :: _, _ :: _ =>
    if (stored ++ proposed).any (fun record => record.body.domain != first.body.domain
        || record.body.package != first.body.package) then .error .differentPackage
    else if stored = proposed then .ok .same
    else if stored <:+ proposed then .ok .extension
    else if proposed <:+ stored then .ok .rollback
    else .ok .fork
  | _, _ => .error .emptyChain

section Compare

variable {owner owner' : VerifyingKey} {domain package : String} {head head' : Key}
  {chain chain' : List (Signed VersionRecord)}

theorem History.ne_nil (h : History crypto owner domain package head chain) : chain ≠ [] := by
  obtain ⟨record, hhead, -⟩ := h.linked.key_head
  rintro rfl
  cases hhead

/-- **Histories of one package are told apart by who is a suffix of whom.** -/
theorem History.compareChains_eq (h : History crypto owner domain package head chain)
    (h' : History crypto owner' domain package head' chain') :
    compareChains chain chain' = .ok (if chain = chain' then .same
      else if chain <:+ chain' then .extension
      else if chain' <:+ chain then .rollback else .fork) := by
  obtain ⟨first, rest, rfl⟩ := List.exists_cons_of_ne_nil h.ne_nil
  obtain ⟨first', rest', rfl⟩ := List.exists_cons_of_ne_nil h'.ne_nil
  have hfirst := h.genuine first List.mem_cons_self
  have hone : ((first :: rest) ++ (first' :: rest')).any (fun record =>
      record.body.domain != first.body.domain || record.body.package != first.body.package)
        = false := by
    rw [List.any_eq_false]
    intro record hmem
    have hgen : record.body.domain = domain ∧ record.body.package = package := by
      rcases List.mem_append.mp hmem with hmem | hmem
      · exact ⟨(h.genuine record hmem).domain, (h.genuine record hmem).package⟩
      · exact ⟨(h'.genuine record hmem).domain, (h'.genuine record hmem).package⟩
    simp [hgen.1, hgen.2, hfirst.domain, hfirst.package]
  unfold compareChains
  dsimp only
  rw [hone, if_neg Bool.false_ne_true]
  split_ifs <;> rfl

theorem History.extension_iff (h : History crypto owner domain package head chain)
    (h' : History crypto owner' domain package head' chain') :
    compareChains chain chain' = .ok .extension ↔ chain <:+ chain' ∧ chain ≠ chain' := by
  rw [h.compareChains_eq h']
  split_ifs with heq hsuf hsuf' <;> simp [*]

theorem History.rollback_iff (h : History crypto owner domain package head chain)
    (h' : History crypto owner' domain package head' chain') :
    compareChains chain chain' = .ok .rollback ↔ chain' <:+ chain ∧ chain' ≠ chain := by
  rw [h.compareChains_eq h']
  split_ifs with heq hsuf hsuf'
  · simp [heq]
  · -- two lists that are suffixes of each other are equal
    simp only [Except.ok.injEq, reduceCtorEq, false_iff, not_and, not_not]
    exact fun hsuf' => hsuf'.eq_of_length_le hsuf.length_le
  · simp [hsuf', Ne.symm heq]
  · simp [hsuf']

theorem History.fork_iff (h : History crypto owner domain package head chain)
    (h' : History crypto owner' domain package head' chain') :
    compareChains chain chain' = .ok .fork ↔ ¬ chain <:+ chain' ∧ ¬ chain' <:+ chain := by
  rw [h.compareChains_eq h']
  split_ifs with heq hsuf hsuf' <;> simp [*]

variable {pointer pointer' : Signed LatestPointer}

/-- **A history that continues another is of a higher version.** Versions
decrease along it, so its head is above every record of a proper suffix. -/
theorem ValidChain.ne_iff_version_lt (h : ValidChain crypto pointer owner chain)
    (h' : ValidChain crypto pointer' owner' chain') (hsuf : chain <:+ chain') :
    chain ≠ chain' ↔ pointer.body.version < pointer'.body.version := by
  obtain ⟨record, hhead, -⟩ := h.linked.key_head
  obtain ⟨newer, rfl⟩ := hsuf
  rw [← h.head_version record hhead]
  cases newer with
  | nil =>
    rw [List.nil_append] at h' ⊢
    rw [← h'.head_version record hhead]
    exact ⟨fun hne => absurd rfl hne, fun hlt => absurd hlt (lt_irrefl _)⟩
  | cons first newer =>
    rw [← h'.head_version first rfl]
    refine ⟨fun _ => ?_, fun _ heq => ?_⟩
    · exact (List.pairwise_cons.mp h'.decreasing).1 record
        (List.mem_append_right _ (List.mem_of_mem_head? hhead))
    · have hlen := congrArg List.length heq
      rw [List.length_append, List.length_cons] at hlen
      omega

end Compare

end Kademlia
