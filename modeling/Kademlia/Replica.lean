import Kademlia.Store

/-!
# Replicas of a linear history

A package's releases form a line: each pointer has a higher version than the
one before, and its history contains the history before. Replicas hear of
them in any order, some of them twice and some never, between other requests
of any kind.

The slot of the package is then a register that keeps the newest release it
has heard of. The final step of the handler looks at the slot and at one
record; that a release heard late, or after skipping some, is still taken for
a continuation is because the history of a later release contains the record
of every earlier one. So what a replica holds in the end depends on the set
of releases delivered and on nothing else.
-/

namespace Kademlia

/-- A release: a pointer and its history. -/
abbrev Release := Signed LatestPointer × List (Signed VersionRecord)

section Convergence

variable {crypto : Crypto} {owner : VerifyingKey} {domain package : String}

/-- One release continues another: a higher version, on top of the same
history. -/
def Release.Above (old new : Release) : Prop :=
  old.1.body.version < new.1.body.version ∧ old.2 <:+ new.2 ∧ old.2 ≠ new.2

instance (old new : Release) : Decidable (old.Above new) :=
  inferInstanceAs (Decidable (_ ∧ _ ∧ _))

/-- **The releases of a package, oldest first**, each with a valid history
that continues the one before. -/
structure Line (crypto : Crypto) (owner : VerifyingKey) (domain package : String)
    (releases : List Release) : Prop where
  /-- Every pointer is for the package. -/
  pointer : ∀ e ∈ releases, e.1.body.domain = domain ∧ e.1.body.package = package
  /-- Every history is complete and the owner's. -/
  valid : ∀ e ∈ releases, ValidChain crypto e.1 owner e.2
  /-- Each release is above the one before. -/
  above : releases.IsChain Release.Above
  /-- No record has the reserved key. -/
  ne_end : ∀ e ∈ releases, ∀ r ∈ e.2, recordKey crypto r ≠ some endOfChain

theorem Release.Above.trans {a b c : Release} (hab : a.Above b) (hbc : b.Above c) :
    a.Above c := by
  refine ⟨hab.1.trans hbc.1, hab.2.1.trans hbc.2.1, fun hac => hab.2.2 ?_⟩
  exact hab.2.1.eq_of_length_le (by rw [hac]; exact hbc.2.1.length_le)

/-- Of two releases of a line, one is above the other. -/
theorem Line.trichotomy {releases : List Release} (h : Line crypto owner domain package releases)
    {e e' : Release} (he : e ∈ releases) (he' : e' ∈ releases) :
    e = e' ∨ e.Above e' ∨ e'.Above e := by
  have htrans : IsTrans Release Release.Above := ⟨fun _ _ _ => Release.Above.trans⟩
  have hpair : releases.Pairwise (fun a b => a.Above b ∨ b.Above a) :=
    (List.isChain_iff_pairwise.mp h.above).imp Or.inl
  have hsymm : Std.Symm (fun a b : Release => a.Above b ∨ b.Above a) := ⟨fun _ _ => Or.symm⟩
  by_cases heq : e = e'
  · exact Or.inl heq
  · exact Or.inr (hpair.forall he he' heq)

/-- A request that delivers a release with its full proof, in any order. -/
def Delivers (crypto : Crypto) (domain package : String) (body : List UInt8) (e : Release) :
    Prop :=
  ∃ proof, deserialize body
      = some (⟨latestKey crypto domain package, .latest e.1, proof⟩ : StoreRequest)
    ∧ proof.Perm e.2

/-- A request with a validly signed and completely proven pointer for the
package. -/
def Proven (crypto : Crypto) (owner : VerifyingKey) (domain package : String)
    (body : List UInt8) : Prop :=
  ∃ pointer proof chain, deserialize body
      = some (⟨latestKey crypto domain package, .latest pointer, proof⟩ : StoreRequest)
    ∧ pointer.body.domain = domain ∧ pointer.body.package = package
    ∧ validateChainProof crypto pointer owner proof = .ok chain

/-- A request, and what DNS answers while it is served. -/
abbrev Delivery := (String → Option VerifyingKey) × List UInt8

/-- Serve requests one after another. -/
def serve (crypto : Crypto) (values : Values) (requests : List Delivery) : Values :=
  requests.foldl (fun values request => (handle crypto request.1 values request.2).2) values

/-- A release was delivered. -/
def Delivered (crypto : Crypto) (domain package : String) (requests : List Delivery)
    (e : Release) : Prop := ∃ request ∈ requests, Delivers crypto domain package request.2 e

/-- **What a replica is sent**: the releases of a line, and requests that prove
nothing about the package, DNS answering the owner's key. -/
def Fair (crypto : Crypto) (owner : VerifyingKey) (domain package : String)
    (releases : List Release) (requests : List Delivery) : Prop :=
  ∀ request ∈ requests, request.1 domain = some owner
    ∧ ((∃ e ∈ releases, Delivers crypto domain package request.2 e)
      ∨ ¬ Proven crypto owner domain package request.2)

/-- The byte strings whose hashes must differ: what the requests are about,
the records of the releases, and the text of the package's key. -/
def lineHashed (domain package : String) (releases : List Release) (requests : List Delivery) :
    Set (List UInt8) :=
  hashed {body | ∃ request ∈ requests, request.2 = body}
    ∪ encodings {r | ∃ e ∈ releases, r ∈ e.2}
    ∪ {Codec.textBytes (latestText domain package)}

/-! ## One request

A request delivers a release of the line, or it proves nothing about the
package. The first kind is put in the slot unless something newer is there. The
second kind may still touch the slot: a blob whose bytes are the text of the
package's key has the same key. It never displaces a pointer, so it matters
only before the first release arrives. -/

section Step

variable {releases : List Release} {requests : List Delivery}

/-- A slot without a pointer. -/
def NoPointer (slot : Option Value) : Prop := ∀ pointer, slot ≠ some (.latest pointer)

/-- An older release gives way. -/
theorem givesWay_of_above {old new : Release} (h : ValidChain crypto old.1 owner old.2)
    (habove : old.Above new) : GivesWay crypto new.1 new.2 (some (.latest old.1)) := by
  obtain ⟨record, hhead, hkey⟩ := h.linked.key_head
  exact Or.inr ⟨habove.1, record, habove.2.1.subset (List.mem_of_mem_head? hhead), hkey,
    h.head_version record hhead⟩

/-- A newer one does not. -/
theorem not_givesWay_of_below {old new : Release} (habove : new.Above old) :
    ¬ GivesWay crypto new.1 new.2 (some (.latest old.1)) := by
  rintro (heq | ⟨hlt, -⟩)
  · exact absurd habove.1 (by rw [heq]; exact lt_irrefl _)
  · exact lt_asymm hlt habove.1

theorem NoPointer.givesWay {slot : Option Value} (h : NoPointer slot)
    (pointer : Signed LatestPointer) (chain : List (Signed VersionRecord)) :
    GivesWay crypto pointer chain slot := by
  cases slot with
  | none => trivial
  | some value =>
    cases value with
    | blob _ => trivial
    | latest p => exact absurd rfl (h p)

/-- The full proof of a release validates to its history. -/
theorem Line.validate (hline : Line crypto owner domain package releases)
    (hinj : Set.InjOn crypto.sha256 (encodings {r | ∃ e ∈ releases, r ∈ e.2}))
    {e : Release} (he : e ∈ releases) {proof : List (Signed VersionRecord)}
    (hperm : proof.Perm e.2) : validateChainProof crypto e.1 owner proof = .ok e.2 := by
  have hvalid := hline.valid e he
  have hhead : e.1.body.versionRecordHash ≠ endOfChain := by
    obtain ⟨record, hhead, hkey⟩ := hvalid.linked.key_head
    exact fun hend => hline.ne_end e he record (List.mem_of_mem_head? hhead) (hend ▸ hkey)
  refine validateChainProof_complete (hinj.mono (encodings_mono ?_)) hhead hvalid hperm
  exact fun r hr => ⟨e, he, hperm.mem_iff.mp hr⟩

/-- **A request that proves nothing leaves a pointer in place**, and puts none
where there is none. A pointer of the package that does not prove itself is
refused, a value of another key does not touch the slot, and a blob gives way
to pointers but takes the place of none. -/
theorem handle_of_not_proven {dns : String → Option VerifyingKey} (hdns : dns domain = some owner)
    {body : List UInt8} (hcolon : ':' ∉ domain.toList)
    (hinj : Set.InjOn crypto.sha256
      (hashed {b | b = body} ∪ {Codec.textBytes (latestText domain package)}))
    (h : ¬ Proven crypto owner domain package body) (values : Values) :
    (handle crypto dns values body).2 (latestKey crypto domain package)
        = values (latestKey crypto domain package)
      ∨ (NoPointer (values (latestKey crypto domain package))
        ∧ NoPointer ((handle crypto dns values body).2 (latestKey crypto domain package))) := by
  unfold handle
  cases hreach : reach crypto dns body with
  | none => exact Or.inl rfl
  | some entry =>
    dsimp only
    rcases commit_cases crypto entry values with ⟨-, heq⟩ | ⟨value, henter, heq⟩
    · exact Or.inl (by rw [heq])
    · rw [heq]
      by_cases hk : latestKey crypto domain package = entry.key
      swap
      · exact Or.inl (Function.update_of_ne hk ..)
      · show _ ∨ (_ ∧ NoPointer (Function.update values entry.key (some value) _))
        rw [hk, Function.update_self]
        rcases enter_eq_some henter with ⟨key, bytes, rfl, rfl, hno⟩ |
          ⟨key, pointer, chain, rfl, rfl, -⟩
        · exact Or.inr ⟨hno, fun _ hp => (nomatch hp)⟩
        · -- a pointer that got this far is proven, for this package
          refine absurd ?_ h
          rcases reach_eq_some hreach with ⟨_, _, -, -, hentry⟩ |
            ⟨_, p, proof, vk, c, hdec, hkey, hvk, hval, hentry⟩
          · cases hentry
          · cases hentry
            have hvalid := (validateChainProof_ok hval).1
            have htext : Codec.textBytes (latestText pointer.body.domain pointer.body.package)
                = Codec.textBytes (latestText domain package) :=
              hinj (Or.inl ⟨body, rfl, _, hdec, List.mem_cons_self⟩) (Or.inr rfl)
                (hkey.trans hk.symm)
            obtain ⟨hdom, hpkg⟩ := latestText_inj
              (not_mem_of_latestIsValid hvalid.pointer_valid) hcolon
              (Codec.textBytes_injective htext)
            rw [hdom, hdns] at hvk
            cases hvk
            exact ⟨pointer, proof, chain, hk ▸ hdec, hdom, hpkg, hval⟩

/-- **A delivered release is put in the slot, unless a newer one is there.** Of
two releases of a line one is above the other. An older pointer in the slot
gives way, as the record it names is in the newer history; a newer one does
not, as its version is not lower. -/
theorem handle_of_delivers (hline : Line crypto owner domain package releases)
    (hinj : Set.InjOn crypto.sha256 (encodings {r | ∃ e ∈ releases, r ∈ e.2}))
    {dns : String → Option VerifyingKey} (hdns : dns domain = some owner) {body : List UInt8}
    {e : Release} (he : e ∈ releases) (h : Delivers crypto domain package body e)
    (values : Values) :
    (NoPointer (values (latestKey crypto domain package)) →
        (handle crypto dns values body).2 (latestKey crypto domain package)
          = some (.latest e.1))
      ∧ ∀ old ∈ releases, values (latestKey crypto domain package) = some (.latest old.1) →
        (handle crypto dns values body).2 (latestKey crypto domain package)
          = some (.latest (if e.Above old then old.1 else e.1)) := by
  obtain ⟨proof, hdec, hperm⟩ := h
  obtain ⟨rfl, rfl⟩ := hline.pointer e he
  rcases handle_latest_ok values hdec hdns (hline.validate hinj he hperm) with
    ⟨hway, heq⟩ | ⟨hstays, heq⟩
  · rw [heq]
    refine ⟨fun _ => Function.update_self .., fun old _ hslot => ?_⟩
    rw [hslot] at hway
    rw [if_neg (fun hbelow => not_givesWay_of_below hbelow hway)]
    exact Function.update_self ..
  · rw [heq]
    refine ⟨fun hno => absurd (hno.givesWay e.1 e.2) hstays, fun old hold hslot => ?_⟩
    rw [hslot] at hstays
    rcases hline.trichotomy hold he with rfl | habove | hbelow
    · exact absurd (Or.inl rfl) hstays
    · exact absurd (givesWay_of_above (hline.valid old hold) habove) hstays
    · rw [if_pos hbelow]
      exact hslot

end Step

/-! ## All requests

The state of the slot after any requests is told by the set of releases
delivered so far (`Newest`), and one request more keeps that description
true. -/

section Serve

variable {releases : List Release}

/-- **The slot is a register of the newest release delivered.** -/
def Newest (crypto : Crypto) (domain package : String) (releases : List Release)
    (requests : List Delivery) (slot : Option Value) : Prop :=
  (NoPointer slot ∧ ∀ e ∈ releases, ¬ Delivered crypto domain package requests e)
    ∨ ∃ e ∈ releases, Delivered crypto domain package requests e ∧ slot = some (.latest e.1)
      ∧ ∀ e' ∈ releases, Delivered crypto domain package requests e' →
        e'.1.body.version ≤ e.1.body.version

theorem delivered_concat {requests : List Delivery} {request : Delivery} {e : Release} :
    Delivered crypto domain package (requests ++ [request]) e
      ↔ Delivered crypto domain package requests e
        ∨ Delivers crypto domain package request.2 e := by
  unfold Delivered
  simp [or_and_right, exists_or]

/-- A request delivers one release at most. -/
theorem Delivers.unique (hline : Line crypto owner domain package releases)
    {body : List UInt8} {e e' : Release} (he : e ∈ releases) (he' : e' ∈ releases)
    (h : Delivers crypto domain package body e) (h' : Delivers crypto domain package body e') :
    e = e' := by
  obtain ⟨_, hdec, -⟩ := h
  obtain ⟨_, hdec', -⟩ := h'
  have hptr : e.1 = e'.1 := by
    have hreq := Option.some.inj (hdec.symm.trans hdec')
    exact Value.latest.inj (StoreRequest.mk.inj hreq).2.1
  rcases hline.trichotomy he he' with heq | habove | habove
  · exact heq
  · exact absurd habove.1 (by rw [hptr]; exact lt_irrefl _)
  · exact absurd habove.1 (by rw [hptr]; exact lt_irrefl _)

/-- A delivered release is a proven one. -/
theorem Delivers.proven (hline : Line crypto owner domain package releases)
    (hinj : Set.InjOn crypto.sha256 (encodings {r | ∃ e ∈ releases, r ∈ e.2}))
    {body : List UInt8} {e : Release} (he : e ∈ releases)
    (h : Delivers crypto domain package body e) : Proven crypto owner domain package body := by
  obtain ⟨proof, hdec, hperm⟩ := h
  obtain ⟨hdom, hpkg⟩ := hline.pointer e he
  exact ⟨e.1, proof, e.2, hdec, hdom, hpkg, hline.validate hinj he hperm⟩

/-- A request that delivers a release keeps the register. -/
theorem Newest.step_of_delivers (hline : Line crypto owner domain package releases)
    (hinj : Set.InjOn crypto.sha256 (encodings {r | ∃ e ∈ releases, r ∈ e.2}))
    {requests : List Delivery} {request : Delivery} (hdns : request.1 domain = some owner)
    {e : Release} (he : e ∈ releases) (hdel : Delivers crypto domain package request.2 e)
    {values : Values}
    (h : Newest crypto domain package releases requests
      (values (latestKey crypto domain package))) :
    Newest crypto domain package releases (requests ++ [request])
      ((handle crypto request.1 values request.2).2 (latestKey crypto domain package)) := by
  -- what the request delivers is this release and no other
  have hone : ∀ e' ∈ releases, Delivers crypto domain package request.2 e' → e' = e :=
    fun e' he' h' => h'.unique hline he' he hdel
  obtain ⟨hvacant, hover⟩ := handle_of_delivers hline hinj hdns he hdel values
  unfold Newest
  simp only [delivered_concat]
  right
  rcases h with ⟨hno, hnone⟩ | ⟨old, hold, hdold, hslot, hmax⟩
  · refine ⟨e, he, Or.inr hdel, hvacant hno, fun e' he' h' => ?_⟩
    rcases h' with h' | h'
    · exact absurd h' (hnone e' he')
    · exact (congrArg (fun x : Release => x.1.body.version) (hone e' he' h')).le
  · by_cases hbelow : e.Above old
    · -- a late one: the slot keeps what it has
      refine ⟨old, hold, Or.inl hdold, ?_, fun e' he' h' => ?_⟩
      · rw [hover old hold hslot, if_pos hbelow]
      · rcases h' with h' | h'
        · exact hmax e' he' h'
        · rw [hone e' he' h']
          exact hbelow.1.le
    · have hle : old.1.body.version ≤ e.1.body.version := by
        rcases hline.trichotomy hold he with heq | habove | habove
        · rw [heq]
        · exact habove.1.le
        · exact absurd habove hbelow
      refine ⟨e, he, Or.inr hdel, ?_, fun e' he' h' => ?_⟩
      · rw [hover old hold hslot, if_neg hbelow]
      · rcases h' with h' | h'
        · exact (hmax e' he' h').trans hle
        · rw [hone e' he' h']

/-- A request that proves nothing about the package keeps the register:
neither the slot's pointer nor the set delivered changes. -/
theorem Newest.step_of_not_proven (hline : Line crypto owner domain package releases)
    (hcolon : ':' ∉ domain.toList) {requests : List Delivery} {request : Delivery}
    (hinj : Set.InjOn crypto.sha256 (lineHashed domain package releases [request]))
    (hdns : request.1 domain = some owner)
    (hnot : ¬ Proven crypto owner domain package request.2) {values : Values}
    (h : Newest crypto domain package releases requests
      (values (latestKey crypto domain package))) :
    Newest crypto domain package releases (requests ++ [request])
      ((handle crypto request.1 values request.2).2 (latestKey crypto domain package)) := by
  have hrec : Set.InjOn crypto.sha256 (encodings {r | ∃ e ∈ releases, r ∈ e.2}) :=
    hinj.mono (fun _ hb => Or.inl (Or.inr hb))
  have hnone : ∀ e' ∈ releases, ¬ Delivers crypto domain package request.2 e' :=
    fun e' he' h' => hnot (h'.proven hline hrec he')
  have hslot := handle_of_not_proven hdns hcolon (hinj.mono (fun b hb => hb.imp
    (fun ⟨body, hbody, hrest⟩ => Or.inl ⟨body, ⟨request, List.mem_cons_self, hbody.symm⟩,
      hrest⟩) id)) hnot values
  unfold Newest
  simp only [delivered_concat]
  rcases h with ⟨hno, hdel⟩ | ⟨old, hold, hdold, hold', hmax⟩
  · refine Or.inl ⟨?_, fun e' he' h' => h'.elim (hdel e' he') (hnone e' he')⟩
    rcases hslot with heq | ⟨-, hno'⟩
    · rw [heq]
      exact hno
    · exact hno'
  · refine Or.inr ⟨old, hold, Or.inl hdold, ?_, fun e' he' h' =>
      hmax e' he' (h'.resolve_right (hnone e' he'))⟩
    rcases hslot with heq | ⟨hno, -⟩
    · rw [heq]
      exact hold'
    · exact absurd hold' (hno _)

/-- **One request more keeps the register.** -/
theorem Newest.step (hline : Line crypto owner domain package releases)
    (hcolon : ':' ∉ domain.toList) {requests : List Delivery} {request : Delivery}
    (hfair : Fair crypto owner domain package releases [request])
    (hinj : Set.InjOn crypto.sha256 (lineHashed domain package releases [request]))
    {values : Values}
    (h : Newest crypto domain package releases requests
      (values (latestKey crypto domain package))) :
    Newest crypto domain package releases (requests ++ [request])
      ((handle crypto request.1 values request.2).2 (latestKey crypto domain package)) := by
  obtain ⟨hdns, ⟨e, he, hdel⟩ | hnot⟩ := hfair request List.mem_cons_self
  · exact h.step_of_delivers hline (hinj.mono (fun _ hb => Or.inl (Or.inr hb))) hdns he hdel
  · exact h.step_of_not_proven hline hcolon hinj hdns hnot

/-- **After all requests the slot is the newest release delivered.** By
induction on the requests, from the end. -/
theorem newest_serve (hline : Line crypto owner domain package releases)
    (hcolon : ':' ∉ domain.toList) {requests : List Delivery}
    (hfair : Fair crypto owner domain package releases requests)
    (hinj : Set.InjOn crypto.sha256 (lineHashed domain package releases requests))
    {values : Values} (hstart : NoPointer (values (latestKey crypto domain package))) :
    Newest crypto domain package releases requests
      (serve crypto values requests (latestKey crypto domain package)) := by
  induction requests using List.reverseRecOn with
  | nil => exact Or.inl ⟨hstart, fun _ _ ⟨_, h, _⟩ => absurd h List.not_mem_nil⟩
  | append_singleton requests request ih =>
    have hpart : ∀ {l : List Delivery}, l ⊆ requests ++ [request] →
        Fair crypto owner domain package releases l
        ∧ Set.InjOn crypto.sha256 (lineHashed domain package releases l) := by
      intro l hl
      refine ⟨fun r hr => hfair r (hl hr), hinj.mono (fun b hb => ?_)⟩
      exact hb.imp (fun hb => hb.imp (fun ⟨body, ⟨r, hr, hbody⟩, hrest⟩ =>
        ⟨body, ⟨r, hl hr, hbody⟩, hrest⟩) id) id
    obtain ⟨hfair', hinj'⟩ := hpart (List.subset_append_left _ _)
    obtain ⟨hfair₁, hinj₁⟩ := hpart (List.subset_append_right _ _)
    unfold serve
    rw [List.foldl_concat]
    exact (ih hfair' hinj').step hline hcolon hfair₁ hinj₁

/-- **Replicas converge.** A replica that starts without a pointer, and is sent
releases of a line in any order among requests that prove nothing about the
package, ends with the delivered release of highest version; and two replicas
that were delivered the same releases end with the same.

Each replica is a register of the newest release it was delivered, so what it
ends with is a function of the set of releases and not of their order, their
repetitions or the other requests. Nothing is exchanged between replicas. The
releases have to form a line: of two releases neither of which continues the
other, each replica keeps the one it heard of first. -/
theorem replicas_converge (crypto : Crypto) (owner : VerifyingKey) (domain package : String)
    (releases : List Release) (hline : Line crypto owner domain package releases)
    (requests requests' : List Delivery) (values values' : Values)
    (hfair : Fair crypto owner domain package releases requests)
    (hfair' : Fair crypto owner domain package releases requests')
    (hinj : Set.InjOn crypto.sha256 (lineHashed domain package releases requests))
    (hinj' : Set.InjOn crypto.sha256 (lineHashed domain package releases requests'))
    (hstart : NoPointer (values (latestKey crypto domain package)))
    (hstart' : NoPointer (values' (latestKey crypto domain package)))
    (hsome : ∃ e ∈ releases, Delivered crypto domain package requests e) :
    (∃ e ∈ releases, Delivered crypto domain package requests e
        ∧ (∀ e' ∈ releases, Delivered crypto domain package requests e' →
          e'.1.body.version ≤ e.1.body.version)
        ∧ serve crypto values requests (latestKey crypto domain package) = some (.latest e.1))
      ∧ ((∀ e ∈ releases, Delivered crypto domain package requests e
            ↔ Delivered crypto domain package requests' e) →
        serve crypto values requests (latestKey crypto domain package)
          = serve crypto values' requests' (latestKey crypto domain package)) := by
  obtain ⟨e₀, he₀, hdel₀⟩ := hsome
  have hcolon : ':' ∉ domain.toList := by
    rw [← (hline.pointer e₀ he₀).1]
    exact not_mem_of_latestIsValid (hline.valid e₀ he₀).pointer_valid
  obtain ⟨e, he, hdel, hslot, hmax⟩ := (newest_serve hline hcolon hfair hinj hstart).resolve_left
    (fun hno => hno.2 e₀ he₀ hdel₀)
  refine ⟨⟨e, he, hdel, hmax, hslot⟩, fun hsame => ?_⟩
  obtain ⟨e', he', hdel', hslot', hmax'⟩ :=
    (newest_serve hline hcolon hfair' hinj' hstart').resolve_left
      (fun hno => hno.2 e he ((hsame e he).mp hdel))
  have hle := hmax' e he ((hsame e he).mp hdel)
  have hge := hmax e' he' ((hsame e' he').mpr hdel')
  rw [hslot, hslot']
  rcases hline.trichotomy he he' with rfl | habove | habove
  · rfl
  · exact absurd habove.1 (not_lt.mpr hge)
  · exact absurd habove.1 (not_lt.mpr hle)

end Serve

end Convergence

namespace Sample

/-- The two releases of the sample history. -/
def releases : List Release := [(firstPointer, [first]), (secondPointer, [second, first])]

/-- Bodies, served while DNS answers the owner's key. -/
def deliveries (bodies : List (List UInt8)) : List Delivery :=
  bodies.map (fun body => (fun _ => some owner, body))

theorem line : Line crypto owner "a" "p" releases where
  pointer := by decide +kernel
  valid := by
    have hvalid : ∀ e ∈ releases, validateChainProof crypto e.1 owner e.2 = .ok e.2 := by
      decide +kernel
    exact fun e he => (validateChainProof_ok (hvalid e he)).1
  above := by decide +kernel
  ne_end := by decide +kernel

/-- The digests do not collide on what requests are about and the releases. -/
theorem injOn_lineHashed {bodies : List (List UInt8)}
    (h : ∀ body ∈ bodies, ∀ request ∈ (deserialize body : Option StoreRequest),
      ∀ bs ∈ request.hashed, bs ∈ digests.map Prod.fst) :
    Set.InjOn crypto.sha256 (lineHashed "a" "p" releases (deliveries bodies)) := by
  have hrec : ∀ e ∈ releases, ∀ r ∈ e.2, ∀ bs ∈ serialize r, bs ∈ digests.map Prod.fst := by
    decide +kernel
  refine injOn_sha256.mono ?_
  rintro bs ((⟨body, ⟨request, hrequest, rfl⟩, req, hdec, hbs⟩ | ⟨r, ⟨e, he, hr⟩, hbs⟩) | rfl)
  · obtain ⟨body, hbody, rfl⟩ := List.mem_map.mp hrequest
    exact h body hbody req hdec bs hbs
  · exact hrec e he r hr bs hbs
  · show _ ∈ digests.map Prod.fst
    decide +kernel

/-- A body delivers a release. -/
def Carries (body : List UInt8) (e : Release) : Prop :=
  ∃ request ∈ (deserialize body : Option StoreRequest), request.key = latestKey crypto "a" "p"
    ∧ request.value = .latest e.1 ∧ request.proof.Perm e.2

instance (body : List UInt8) (e : Release) : Decidable (Carries body e) :=
  inferInstanceAs (Decidable (∃ request ∈ (deserialize body : Option StoreRequest), _))

theorem Carries.delivers {body : List UInt8} {e : Release} (h : Carries body e) :
    Delivers crypto "a" "p" body e := by
  obtain ⟨⟨key, value, proof⟩, hdec, rfl, rfl, hperm⟩ := h
  exact ⟨proof, hdec, hperm⟩

theorem delivered {bodies : List (List UInt8)} {e : Release}
    (h : ∃ body ∈ bodies, Carries body e) :
    Delivered crypto "a" "p" (deliveries bodies) e := by
  obtain ⟨body, hbody, hcarries⟩ := h
  exact ⟨_, List.mem_map.mpr ⟨body, hbody, rfl⟩, hcarries.delivers⟩

/-- Releases, and bodies without a pointer, are what a replica may be sent. -/
theorem fair {bodies : List (List UInt8)}
    (h : ∀ body ∈ bodies, (∃ e ∈ releases, Carries body e)
      ∨ ∀ request ∈ (deserialize body : Option StoreRequest),
        request.value = .blob request.value.preimage) :
    Fair crypto owner "a" "p" releases (deliveries bodies) := by
  intro request hrequest
  obtain ⟨body, hbody, rfl⟩ := List.mem_map.mp hrequest
  refine ⟨rfl, (h body hbody).imp (fun ⟨e, he, hc⟩ => ⟨e, he, hc.delivers⟩) (fun hblob => ?_)⟩
  rintro ⟨pointer, proof, chain, hdec, -⟩
  exact (nomatch hblob _ hdec)

end Sample

/-- One replica hears of the second release first, among a squatter's blob;
the other of both in order. -/
theorem replicas_converge_sample :
    serve Sample.crypto (fun _ => none) (Sample.deliveries
        [Sample.body (.latest Sample.secondPointer) [Sample.first, Sample.second],
          Sample.body (.blob (Codec.textBytes "a:p:latest")) [],
          Sample.body (.latest Sample.firstPointer) [Sample.first]])
        (latestKey Sample.crypto "a" "p")
      = serve Sample.crypto (fun _ => none) (Sample.deliveries
        [Sample.body (.latest Sample.firstPointer) [Sample.first],
          Sample.body (.latest Sample.secondPointer) [Sample.second, Sample.first]])
        (latestKey Sample.crypto "a" "p") := by
  have hdel : ∀ e ∈ Sample.releases, ∃ body ∈
      [Sample.body (.latest Sample.secondPointer) [Sample.first, Sample.second],
        Sample.body (.blob (Codec.textBytes "a:p:latest")) [],
        Sample.body (.latest Sample.firstPointer) [Sample.first]],
      Sample.Carries body e := by decide +kernel
  have hdel' : ∀ e ∈ Sample.releases, ∃ body ∈
      [Sample.body (.latest Sample.firstPointer) [Sample.first],
        Sample.body (.latest Sample.secondPointer) [Sample.second, Sample.first]],
      Sample.Carries body e := by decide +kernel
  refine (replicas_converge Sample.crypto Sample.owner "a" "p" Sample.releases Sample.line _ _
    _ _ (Sample.fair (by decide +kernel)) (Sample.fair (by decide +kernel))
    (Sample.injOn_lineHashed (by decide +kernel)) (Sample.injOn_lineHashed (by decide +kernel))
    (fun _ h => by cases h) (fun _ h => by cases h) ?_).2 (fun e he => ?_)
  · exact ⟨_, List.mem_cons_self, Sample.delivered (hdel _ List.mem_cons_self)⟩
  · exact iff_of_true (Sample.delivered (hdel e he)) (Sample.delivered (hdel' e he))

end Kademlia
