import Kademlia.StorageTargets

/-!
# What a value lookup makes of the replies

A value lookup asks its candidates and takes their replies in the order they
happen to come in. What it finds is the accepted ones among the replies it took
(`lookupValuesLoop_eq`), and it takes the reply of every candidate unless an
accepted one ends it before (`valueRepliesLoop_perm`). So what it finds depends
on the replies and not on their order, and a reply that is not accepted has no
part in it: a blob that hashes to the key is found if any candidate has it, and
the latest pointer found is a newest one of the valid pointers replied.

That a candidate replies something is read off a run: an assignment of replies
to contacts describes a run if every reply the run takes is the assigned one.
-/

namespace Kademlia

/-- The greatest key is the key of what is found. -/
theorem le_maxByKey {α ω : Type} [LinearOrder ω] {key : α → ω} {l : List α} {a : α}
    (h : maxByKey key l = some a) : ∀ b ∈ l, key b ≤ key a := by
  have hfold : ∀ (l : List α) (b : α), ∀ x ∈ b :: l,
      key x ≤ key (l.foldl (fun best x => if key x < key best then best else x) b) := by
    intro l
    induction l with
    | nil =>
      intro b x hx
      rw [List.mem_singleton.mp hx]
      exact le_rfl
    | cons y l ih =>
      intro b x hx
      rw [List.foldl_cons]
      -- the better of the first two stands for both
      have hbest : key x ≤ key (if key y < key b then b else y) ∨ x ∈ l := by
        rcases List.mem_cons.mp hx with rfl | hx
        · left
          split
          · exact le_rfl
          · next hlt => exact not_lt.mp hlt
        · rcases List.mem_cons.mp hx with rfl | hx
          · left
            split
            · next hlt => exact hlt.le
            · exact le_rfl
          · exact Or.inr hx
      rcases hbest with hle | hx
      · exact hle.trans (ih _ _ List.mem_cons_self)
      · exact ih _ x (List.mem_cons_of_mem _ hx)
  cases l with
  | nil => cases h
  | cons b l =>
    cases h
    exact hfold l b

theorem maxByKey_eq_none_iff {α ω : Type} [LinearOrder ω] {key : α → ω} {l : List α} :
    maxByKey key l = none ↔ l = [] := by
  cases l with
  | nil => exact iff_of_true rfl rfl
  | cons a l => exact iff_of_false nofun (List.cons_ne_nil a l)

/-- The value in a reply, if it is accepted. -/
def acceptedIn (accept : Value → Bool) (p : Contact × FindValue) : Option (Contact × Value) :=
  match p.2 with
  | .value value => if accept value then some (p.1, value) else none
  | .closest _ => none

theorem acceptedIn_eq_some_iff {accept : Value → Bool} {p : Contact × FindValue}
    {q : Contact × Value} :
    acceptedIn accept p = some q ↔ p = (q.1, .value q.2) ∧ accept q.2 = true := by
  obtain ⟨source, reply⟩ := p
  obtain ⟨source', value'⟩ := q
  unfold acceptedIn
  cases reply with
  | closest contacts => simp
  | value value =>
    dsimp only
    split
    · next haccept =>
      simp only [Option.some.injEq, Prod.mk.injEq, FindValue.value.injEq]
      exact ⟨fun h => ⟨h, h.2 ▸ haccept⟩, fun h => h.1⟩
    · next haccept =>
      refine iff_of_false nofun ?_
      rintro ⟨h, haccept'⟩
      cases h
      exact haccept haccept'

namespace Rpc

variable {τ ν : Type} [CloseNodes τ] (rpc : Rpc τ ν)

/-- The replies that the loop of a value lookup takes, in the order they come
in. -/
def valueRepliesLoop (key : Key) (accept : Value → Bool) (stopAtFirst : Bool) :
    (rounds : ℕ) → (candidates inFlight : List Contact) → World τ ν → List (Contact × FindValue)
  | 0, _, _, _ => []
  | rounds + 1, candidates, inFlight, world =>
    let slots := alpha - inFlight.length
    match rpc.next .findValue ((serialize key).getD []) (inFlight ++ candidates.take slots)
        world with
    | none => []
    | some ((source, reply), inFlight, world) =>
      let candidates := candidates.drop slots
      (source, answerIn reply) :: match answerIn reply with
      | .value value =>
        if accept value && stopAtFirst then []
        else valueRepliesLoop key accept stopAtFirst rounds candidates inFlight world
      | .closest contacts =>
        valueRepliesLoop key accept stopAtFirst rounds candidates inFlight (offer contacts world)

/-- The replies that a value lookup takes. -/
def valueReplies (key : Key) (accept : Value → Bool) (stopAtFirst : Bool) (world : World τ ν) :
    List (Contact × FindValue) :=
  let (candidates, world) := rpc.targets key world
  rpc.valueRepliesLoop key accept stopAtFirst (candidates.length + 1) candidates [] world

end Rpc

section Replies

variable {τ ν : Type} [CloseNodes τ] {rpc : Rpc τ ν} {key : Key} {accept : Value → Bool}
  {stopAtFirst : Bool}

/-- **What is found is what was accepted of the replies**, in the order they
came in. The loop keeps what it accepts and forgets the rest, so its result can
be read off the replies afterwards. -/
theorem lookupValuesLoop_eq (rounds : ℕ) (candidates inFlight : List Contact)
    (found : List (Contact × Value)) (world : World τ ν) :
    (rpc.lookupValuesLoop key accept stopAtFirst rounds candidates inFlight found world).1
      = found ++ (rpc.valueRepliesLoop key accept stopAtFirst rounds candidates inFlight
          world).filterMap (acceptedIn accept) := by
  induction rounds generalizing candidates inFlight found world with
  | zero => exact (List.append_nil found).symm
  | succ rounds ih =>
    unfold Rpc.lookupValuesLoop Rpc.valueRepliesLoop
    dsimp only
    cases hnext : rpc.next .findValue ((serialize key).getD [])
        (inFlight ++ candidates.take (alpha - inFlight.length)) world with
    | none => exact (List.append_nil found).symm
    | some completed =>
      obtain ⟨⟨source, reply⟩, rest, world'⟩ := completed
      dsimp only
      rw [List.filterMap_cons]
      cases hreply : Rpc.answerIn reply with
      | closest contacts => exact ih ..
      | value value =>
        cases haccept : accept value with
        | false =>
          simp only [acceptedIn, haccept, Bool.false_and, Bool.false_eq_true, if_false]
          exact ih ..
        | true =>
          cases stopAtFirst with
          | true => simp [acceptedIn, haccept]
          | false =>
            simp only [acceptedIn, haccept, Bool.and_false, Bool.false_eq_true, if_false, if_true]
            rw [ih, List.append_assoc]
            rfl

/-- **One round**: there is nothing left to ask, or a reply is taken, which ends
the lookup or is followed by those of the others. -/
theorem valueRepliesLoop_succ (rounds : ℕ) (candidates inFlight : List Contact)
    (world : World τ ν) :
    (inFlight ++ candidates = []
        ∧ rpc.valueRepliesLoop key accept stopAtFirst (rounds + 1) candidates inFlight world = [])
      ∨ ∃ source answer rest waiting,
        (source :: (rest ++ waiting)).Perm (inFlight ++ candidates)
        ∧ ((stopAtFirst = true ∧ acceptedIn accept (source, answer) ≠ none
            ∧ rpc.valueRepliesLoop key accept stopAtFirst (rounds + 1) candidates inFlight world
              = [(source, answer)])
          ∨ ∃ world',
            rpc.valueRepliesLoop key accept stopAtFirst (rounds + 1) candidates inFlight world
              = (source, answer)
                :: rpc.valueRepliesLoop key accept stopAtFirst rounds waiting rest world') := by
  cases hnext : rpc.next .findValue ((serialize key).getD [])
      (inFlight ++ candidates.take (alpha - inFlight.length)) world with
  | none =>
    -- nothing is in flight, so nothing was left to ask
    obtain ⟨rfl, htake⟩ := List.append_eq_nil_iff.mp (Rpc.next_eq_none_iff.mp hnext)
    have hnil : candidates = [] := (List.take_eq_nil_iff.mp htake).resolve_left (by decide)
    refine Or.inl ⟨hnil, ?_⟩
    unfold Rpc.valueRepliesLoop
    dsimp only
    rw [hnext]
  | some completed =>
    obtain ⟨⟨source, reply⟩, rest, world'⟩ := completed
    have hperm := (Rpc.next_perm hnext).append_right (candidates.drop (alpha - inFlight.length))
    rw [List.append_assoc, List.take_append_drop] at hperm
    refine Or.inr ⟨source, Rpc.answerIn reply, rest, _, hperm, ?_⟩
    rw [Rpc.valueRepliesLoop]
    dsimp only
    rw [hnext]
    dsimp only
    generalize Rpc.answerIn reply = answer
    cases answer with
    | closest contacts => exact Or.inr ⟨_, rfl⟩
    | value value =>
      cases hend : accept value && stopAtFirst with
      | false => exact Or.inr ⟨world', by simp only [hend, Bool.false_eq_true, if_false]⟩
      | true =>
        obtain ⟨haccept, hstop⟩ := Bool.and_eq_true_iff.mp hend
        exact Or.inl ⟨hstop, by simp [acceptedIn, haccept], by simp only [hend, if_true]⟩

/-- **A lookup takes the reply of every candidate**, unless an accepted one
ends it before. By induction on the rounds: a round takes one candidate's
reply, and which one is up to the network. -/
theorem valueRepliesLoop_perm {rounds : ℕ} {candidates inFlight : List Contact}
    (world : World τ ν) (h : candidates.length + inFlight.length < rounds) :
    ((rpc.valueRepliesLoop key accept stopAtFirst rounds candidates inFlight world).map
        Prod.fst).Perm (inFlight ++ candidates)
      ∨ stopAtFirst = true
        ∧ (rpc.valueRepliesLoop key accept stopAtFirst rounds candidates inFlight
          world).filterMap (acceptedIn accept) ≠ [] := by
  induction rounds generalizing candidates inFlight world with
  | zero => exact absurd h (Nat.not_lt_zero _)
  | succ rounds ih =>
    rcases valueRepliesLoop_succ rounds candidates inFlight world with ⟨hnone, hnil⟩ |
      ⟨source, answer, rest, waiting, hperm, ⟨hstop, haccept, hlog⟩ | ⟨world', hlog⟩⟩
    · rw [hnone, hnil]
      exact Or.inl (List.Perm.refl _)
    · rw [hlog]
      refine Or.inr ⟨hstop, fun hnil => haccept ?_⟩
      exact List.filterMap_eq_nil_iff.mp hnil _ List.mem_cons_self
    · have hlen := hperm.length_eq
      rw [List.length_cons, List.length_append, List.length_append] at hlen
      have hfewer : waiting.length + rest.length < rounds := by omega
      rw [hlog]
      rcases ih world' hfewer with hp | ⟨hstop, hne⟩
      · exact Or.inl ((hp.cons source).trans hperm)
      · refine Or.inr ⟨hstop, fun hnil => hne ?_⟩
        rw [List.filterMap_eq_nil_iff] at hnil ⊢
        exact fun p hp => hnil p (List.mem_cons_of_mem _ hp)

/-- Only candidates reply, and each of them once. -/
theorem valueRepliesLoop_subperm (rounds : ℕ) (candidates inFlight : List Contact)
    (world : World τ ν) :
    ((rpc.valueRepliesLoop key accept stopAtFirst rounds candidates inFlight world).map
      Prod.fst).Subperm (inFlight ++ candidates) := by
  induction rounds generalizing candidates inFlight world with
  | zero => exact List.nil_subperm
  | succ rounds ih =>
    rcases valueRepliesLoop_succ rounds candidates inFlight world with ⟨-, hnil⟩ |
      ⟨source, answer, rest, waiting, hperm, ⟨-, -, hlog⟩ | ⟨world', hlog⟩⟩
    · rw [hnil]
      exact List.nil_subperm
    · rw [hlog]
      exact ((List.subperm_cons source).mpr List.nil_subperm).trans hperm.subperm
    · rw [hlog]
      exact ((List.subperm_cons source).mpr (ih waiting rest world')).trans hperm.subperm

/-- **An assignment of replies describes a lookup**: what is taken from a contact
is what the assignment gives it. -/
def Rpc.Hears (rpc : Rpc τ ν) (key : Key) (accept : Value → Bool) (stopAtFirst : Bool)
    (world : World τ ν) (replies : Contact → FindValue) : Prop :=
  ∀ p ∈ rpc.valueReplies key accept stopAtFirst world, p.2 = replies p.1

variable {world : World τ ν} {replies : Contact → FindValue}

theorem lookupValues_eq (key : Key) (accept : Value → Bool) (stopAtFirst : Bool)
    (world : World τ ν) :
    (rpc.lookupValues key accept stopAtFirst world).1
      = (rpc.valueReplies key accept stopAtFirst world).filterMap (acceptedIn accept) :=
  lookupValuesLoop_eq ..

/-- **Every lookup is described by some assignment.** No candidate replies
twice, as the candidates are distinct, so its one reply can be assigned to
it. -/
theorem exists_hears (rpc : Rpc τ ν) (key : Key) (accept : Value → Bool) (stopAtFirst : Bool)
    (world : World τ ν) : ∃ replies, rpc.Hears key accept stopAtFirst world replies := by
  have hnodup : ((rpc.valueReplies key accept stopAtFirst world).map Prod.fst).Nodup := by
    have hsubperm : ((rpc.valueReplies key accept stopAtFirst world).map Prod.fst).Subperm
        (rpc.targets key world).1 := valueRepliesLoop_subperm _ _ [] _
    obtain ⟨asked, hperm, hsub⟩ := hsubperm
    exact hperm.nodup_iff.mp (hsub.nodup ((selects_targets rpc key world).nodup.of_map _))
  refine ⟨fun c => (((rpc.valueReplies key accept stopAtFirst world).find?
    (fun p => decide (p.1 = c))).map Prod.snd).getD (.closest []), fun p hp => ?_⟩
  dsimp only
  cases hfind : (rpc.valueReplies key accept stopAtFirst world).find?
      (fun q => decide (q.1 = p.1)) with
  | none => exact absurd (decide_eq_true rfl) (List.find?_eq_none.mp hfind p hp)
  | some q =>
    have hq : q.1 = p.1 := by simpa using List.find?_some hfind
    rw [List.inj_on_of_nodup_map hnodup (List.mem_of_find?_eq_some hfind) hp hq]
    rfl

/-- **What is found was replied by a candidate, and accepted.** -/
theorem of_mem_lookupValues (h : rpc.Hears key accept stopAtFirst world replies)
    {p : Contact × Value} (hp : p ∈ (rpc.lookupValues key accept stopAtFirst world).1) :
    p.1 ∈ (rpc.targets key world).1 ∧ replies p.1 = .value p.2 ∧ accept p.2 = true := by
  rw [lookupValues_eq] at hp
  obtain ⟨q, hq, hpq⟩ := List.mem_filterMap.mp hp
  obtain ⟨rfl, haccept⟩ := acceptedIn_eq_some_iff.mp hpq
  have hasked := (valueRepliesLoop_subperm _ _ [] _).subset (List.mem_map_of_mem hq)
  exact ⟨hasked, (h _ hq).symm, haccept⟩

/-- **A reply that is accepted is found**, unless the lookup ends before with
another. Bad replies do not end a lookup, and do not keep it from asking the
next candidate. -/
theorem mem_lookupValues_or (h : rpc.Hears key accept stopAtFirst world replies)
    {p : Contact × Value} (hc : p.1 ∈ (rpc.targets key world).1)
    (hreply : replies p.1 = .value p.2) (haccept : accept p.2 = true) :
    p ∈ (rpc.lookupValues key accept stopAtFirst world).1
      ∨ stopAtFirst = true ∧ (rpc.lookupValues key accept stopAtFirst world).1 ≠ [] := by
  rw [lookupValues_eq]
  refine (valueRepliesLoop_perm _ (Nat.lt_succ_self _)).imp_left fun hperm => ?_
  obtain ⟨⟨c, answer⟩, hq, hcq⟩ := List.mem_map.mp (hperm.symm.subset hc)
  obtain rfl : c = p.1 := hcq
  have hanswer : answer = .value p.2 := (h _ hq).trans hreply
  refine List.mem_filterMap.mpr ⟨_, hq, acceptedIn_eq_some_iff.mpr ⟨?_, haccept⟩⟩
  rw [hanswer]

/-- A reply that is accepted is enough: the lookup finds something. -/
theorem lookupValues_ne_nil (h : rpc.Hears key accept stopAtFirst world replies)
    {p : Contact × Value} (hc : p.1 ∈ (rpc.targets key world).1)
    (hreply : replies p.1 = .value p.2) (haccept : accept p.2 = true) :
    (rpc.lookupValues key accept stopAtFirst world).1 ≠ [] :=
  (mem_lookupValues_or h hc hreply haccept).elim List.ne_nil_of_mem And.right

/-- **A lookup of everything finds exactly the accepted replies of the
candidates.** -/
theorem mem_lookupValues_iff (h : rpc.Hears key accept false world replies)
    {p : Contact × Value} :
    p ∈ (rpc.lookupValues key accept false world).1
      ↔ p.1 ∈ (rpc.targets key world).1 ∧ replies p.1 = .value p.2 ∧ accept p.2 = true := by
  refine ⟨of_mem_lookupValues h, fun ⟨hc, hreply, haccept⟩ => ?_⟩
  exact (mem_lookupValues_or h hc hreply haccept).resolve_right fun hstop => (nomatch hstop.1)

end Replies

/-! ## Blobs

A blob is known by its key, so the first one that hashes to it may end the
lookup: any other would be the same bytes. -/

section Blobs

variable {τ ν : Type} [CloseNodes τ] {rpc : Rpc τ ν} {crypto : Crypto} {key : Key}
  {world : World τ ν} {replies : Contact → FindValue}

/-- A blob found is in the reply of a candidate, and hashes to the key. -/
theorem of_lookupValue_eq_some (h : rpc.Hears key (isBlobFor crypto key) true world replies)
    {source : Contact} {bytes : List UInt8}
    (hfound : (rpc.lookupValue crypto key world).1 = some (source, bytes)) :
    keyForValue crypto bytes = key ∧ source ∈ (rpc.targets key world).1
      ∧ replies source = .value (.blob bytes) := by
  refine ⟨keyForValue_of_lookupValue hfound, ?_⟩
  unfold Rpc.lookupValue at hfound
  dsimp only at hfound
  split at hfound
  · next hhead =>
    cases hfound
    obtain ⟨hc, hreply, -⟩ := of_mem_lookupValues h (List.mem_of_mem_head? hhead)
    exact ⟨hc, hreply⟩
  · cases hfound

/-- **A blob that hashes to the key is found if any candidate replies with it.** -/
theorem isSome_lookupValue (h : rpc.Hears key (isBlobFor crypto key) true world replies)
    {c : Contact} {bytes : List UInt8} (hc : c ∈ (rpc.targets key world).1)
    (hreply : replies c = .value (.blob bytes)) (hkey : keyForValue crypto bytes = key) :
    (rpc.lookupValue crypto key world).1.isSome = true := by
  have hne : (rpc.lookupValues key (isBlobFor crypto key) true world).1 ≠ [] :=
    lookupValues_ne_nil (p := (c, .blob bytes)) h hc hreply (beq_iff_eq.mpr hkey)
  obtain ⟨p, hp⟩ : ∃ p, (rpc.lookupValues key (isBlobFor crypto key) true world).1.head? = some p :=
    ⟨_, List.head?_eq_some_head hne⟩
  obtain ⟨-, -, haccept⟩ := of_mem_lookupValues h (List.mem_of_mem_head? hp)
  obtain ⟨source, value⟩ := p
  unfold Rpc.lookupValue
  dsimp only
  rw [hp]
  cases value with
  | blob bytes => rfl
  | latest pointer => cases haccept

end Blobs

/-- **A value lookup is not derailed by bad replies.** For every assignment of
replies to the candidates and every order they come in: only a blob that hashes
to the key is returned, and by whom it was replied; one is returned if any
candidate replies with it; and, as far as the hashes of the blobs do not
collide, in every order the same.

A candidate that lies, errs, or names other nodes costs one call. The lookup
asks all candidates before it gives up, so one honest candidate that holds the
blob is enough. Who is a candidate was decided before, by the node lookup, and
is not what this is about. -/
theorem lookupValue_robust {τ ν : Type} [CloseNodes τ] (rpc : Rpc τ ν) (crypto : Crypto)
    (key : Key) (world : World τ ν) (replies : Contact → FindValue)
    (h : rpc.Hears key (isBlobFor crypto key) true world replies) :
    (∀ source bytes, (rpc.lookupValue crypto key world).1 = some (source, bytes) →
        keyForValue crypto bytes = key ∧ source ∈ (rpc.targets key world).1
          ∧ replies source = .value (.blob bytes))
      ∧ (∀ c ∈ (rpc.targets key world).1, ∀ bytes, replies c = .value (.blob bytes) →
        keyForValue crypto bytes = key → (rpc.lookupValue crypto key world).1.isSome = true)
      ∧ ∀ {τ' ν' : Type} [CloseNodes τ'] (rpc' : Rpc τ' ν') (world' : World τ' ν'),
        (∀ c, c ∈ (rpc'.targets key world').1 ↔ c ∈ (rpc.targets key world).1) →
        rpc'.Hears key (isBlobFor crypto key) true world' replies →
        Set.InjOn crypto.sha256
          {bytes | ∃ c ∈ (rpc.targets key world).1, replies c = .value (.blob bytes)} →
        (rpc'.lookupValue crypto key world').1.map Prod.snd
          = (rpc.lookupValue crypto key world).1.map Prod.snd := by
  refine ⟨fun source bytes => of_lookupValue_eq_some h,
    fun c hc bytes => isSome_lookupValue h hc, ?_⟩
  intro τ' ν' _ rpc' world' hsame h' hinj
  cases hfound : (rpc.lookupValue crypto key world).1 with
  | some p =>
    obtain ⟨source, bytes⟩ := p
    obtain ⟨hkey, hc, hreply⟩ := of_lookupValue_eq_some h hfound
    obtain ⟨⟨source', bytes'⟩, hfound'⟩ := Option.isSome_iff_exists.mp
      (isSome_lookupValue h' ((hsame source).mpr hc) hreply hkey)
    obtain ⟨hkey', hc', hreply'⟩ := of_lookupValue_eq_some h' hfound'
    rw [hfound']
    exact congrArg some (hinj ⟨source', (hsame source').mp hc', hreply'⟩ ⟨source, hc, hreply⟩
      (hkey'.trans hkey.symm))
  | none =>
    cases hfound' : (rpc'.lookupValue crypto key world').1 with
    | none => rfl
    | some p =>
      obtain ⟨source', bytes'⟩ := p
      obtain ⟨hkey', hc', hreply'⟩ := of_lookupValue_eq_some h' hfound'
      have hsome := isSome_lookupValue h ((hsame source').mp hc') hreply' hkey'
      rw [hfound] at hsome
      cases hsome

namespace Sample

/-- A network of two nodes: one always answers with a blob that nobody asked for,
the other with what it is told to hold. -/
def liar (held : Value) : Outside DumbBucket Unit where
  settle world requests :=
    (1, match requests[1 % requests.length]? with
      | some request =>
        if request.peer = (peer 1 8001).address then .ok (encoding (FindValue.value (.blob [1])))
        else if request.peer = (peer 2 8002).address then .ok (encoding (FindValue.value held))
        else .error .timedOut
      | none => .error .other, world)
  getDnsVk world _ := (some owner, world)

/-- A client that knows the two. -/
def asking (held : Value) : Rpc DumbBucket Unit := ⟨peer 255 9000, liar held⟩

/-- What the two reply. -/
def lies (held : Value) (c : Contact) : FindValue :=
  if c = peer 1 8001 then .value (.blob [1])
  else if c = peer 2 8002 then .value held else .closest []

end Sample

/-- The record of the first version is found behind the liar. -/
theorem lookupValue_robust_sample :
    ∃ source bytes, ((Sample.asking (.blob (Sample.encoding Sample.first))).lookupValue
        Sample.crypto (keyForValue Sample.crypto (Sample.encoding Sample.first))
        ⟨⟨[Sample.peer 1 8001, Sample.peer 2 8002]⟩, ()⟩).1 = some (source, bytes)
      ∧ keyForValue Sample.crypto bytes
        = keyForValue Sample.crypto (Sample.encoding Sample.first) := by
  obtain ⟨hsound, hfound, -⟩ := lookupValue_robust
    (Sample.asking (.blob (Sample.encoding Sample.first))) Sample.crypto
    (keyForValue Sample.crypto (Sample.encoding Sample.first))
    ⟨⟨[Sample.peer 1 8001, Sample.peer 2 8002]⟩, ()⟩
    (Sample.lies (.blob (Sample.encoding Sample.first))) (by unfold Rpc.Hears; decide +kernel)
  obtain ⟨⟨source, bytes⟩, h⟩ := Option.isSome_iff_exists.mp
    (hfound (Sample.peer 2 8002) (by decide +kernel) _ rfl rfl)
  exact ⟨source, bytes, h, (hsound source bytes h).1⟩

/-! ## Latest pointers

A pointer is not known by its key: a package has many, all validly signed and
all under one key. So every candidate is asked, and the newest of the valid
ones is taken. -/

namespace Rpc

variable {τ ν : Type} [CloseNodes τ] (rpc : Rpc τ ν) (crypto : Crypto) (domain package : String)
  (world : World τ ν)

/-- Who is asked for the latest pointer of a package. -/
def latestTargets : List Contact :=
  (rpc.targets (latestKey crypto domain package) (rpc.getDnsVk domain world).2).1

/-- An assignment of replies describes the search for a latest pointer. -/
def HearsLatest (replies : Contact → FindValue) : Prop :=
  ∀ owner, (rpc.getDnsVk domain world).1 = some owner →
    rpc.Hears (latestKey crypto domain package) (isLatestFor crypto owner domain package) false
      (rpc.getDnsVk domain world).2 replies

end Rpc

/-- A latest pointer of a package, signed by the owner. -/
structure IsLatest (crypto : Crypto) (owner : VerifyingKey) (domain package : String)
    (pointer : Signed LatestPointer) : Prop where
  /-- It is of the domain. -/
  domain : pointer.body.domain = domain
  /-- It is of the package. -/
  package : pointer.body.package = package
  /-- It is signed. -/
  valid : latestIsValid crypto pointer owner = true

/-- **The valid pointers replied**: those of the package, signed with the key in
DNS, that a candidate replies with. -/
def Rpc.ValidReply {τ ν : Type} [CloseNodes τ] (rpc : Rpc τ ν) (crypto : Crypto)
    (domain package : String) (world : World τ ν) (replies : Contact → FindValue)
    (pointer : Signed LatestPointer) : Prop :=
  ∃ owner, (rpc.getDnsVk domain world).1 = some owner
    ∧ IsLatest crypto owner domain package pointer
    ∧ ∃ c ∈ rpc.latestTargets crypto domain package world, replies c = .value (.latest pointer)

section Latest

variable {τ ν : Type} [CloseNodes τ] {rpc : Rpc τ ν} {crypto : Crypto} {domain package : String}
  {world : World τ ν} {replies : Contact → FindValue}

theorem isLatestFor_eq_true_iff {owner : VerifyingKey} {value : Value} :
    isLatestFor crypto owner domain package value = true
      ↔ ∃ pointer, value = .latest pointer ∧ IsLatest crypto owner domain package pointer := by
  cases value with
  | blob bytes => exact iff_of_false nofun (fun ⟨_, h, _⟩ => (nomatch h))
  | latest pointer =>
    unfold isLatestFor
    simp only [Bool.and_eq_true, beq_iff_eq, Value.latest.injEq, exists_eq_left']
    exact ⟨fun h => ⟨h.1.1, h.1.2, h.2⟩, fun h => ⟨⟨h.domain, h.package⟩, h.valid⟩⟩

/-- **The latest pointer found is the last of the newest among the valid
ones**, in the order the replies came in. The order matters only between valid
pointers of one version, of which an owner who signs each version once makes no
two. -/
theorem getLatest_eq (h : rpc.HearsLatest crypto domain package world replies) :
    ∃ pointers : List (Signed LatestPointer),
      (rpc.getLatest crypto domain package world).1
        = maxByKey (fun pointer => pointer.body.version) pointers
      ∧ ∀ pointer, pointer ∈ pointers
        ↔ rpc.ValidReply crypto domain package world replies pointer := by
  unfold Rpc.getLatest Rpc.ValidReply Rpc.latestTargets
  unfold Rpc.HearsLatest at h
  cases hdns : rpc.getDnsVk domain world with
  | mk owner world₁ =>
  cases owner with
  | none =>
    exact ⟨[], rfl, fun pointer => iff_of_false List.not_mem_nil fun ⟨_, h, _⟩ => (nomatch h)⟩
  | some owner =>
    refine ⟨_, rfl, fun pointer => ?_⟩
    have hhears := h owner (by rw [hdns])
    rw [hdns] at hhears
    rw [List.mem_filterMap]
    constructor
    · rintro ⟨⟨c, value⟩, hp, hpointer⟩
      obtain ⟨hc, hreply, haccept⟩ := (mem_lookupValues_iff hhears).mp hp
      obtain ⟨q, rfl, hlatest⟩ := isLatestFor_eq_true_iff.mp haccept
      cases hpointer
      exact ⟨owner, rfl, hlatest, c, hc, hreply⟩
    · rintro ⟨owner', howner, hlatest, c, hc, hreply⟩
      cases howner
      exact ⟨(c, .latest pointer), (mem_lookupValues_iff hhears).mpr
        ⟨hc, hreply, isLatestFor_eq_true_iff.mpr ⟨pointer, rfl, hlatest⟩⟩, rfl⟩

/-- There is a latest pointer exactly if a valid one is replied. -/
theorem getLatest_eq_none_iff (h : rpc.HearsLatest crypto domain package world replies) :
    (rpc.getLatest crypto domain package world).1 = none
      ↔ ∀ pointer, ¬ rpc.ValidReply crypto domain package world replies pointer := by
  obtain ⟨pointers, heq, hmem⟩ := getLatest_eq h
  rw [heq, maxByKey_eq_none_iff, List.eq_nil_iff_forall_not_mem]
  exact forall_congr' fun pointer => not_congr (hmem pointer)

/-- **The latest pointer is a valid one, and none is newer.** -/
theorem of_getLatest_eq_some (h : rpc.HearsLatest crypto domain package world replies)
    {pointer : Signed LatestPointer}
    (hfound : (rpc.getLatest crypto domain package world).1 = some pointer) :
    rpc.ValidReply crypto domain package world replies pointer
      ∧ ∀ other, rpc.ValidReply crypto domain package world replies other →
        other.body.version ≤ pointer.body.version := by
  obtain ⟨pointers, heq, hmem⟩ := getLatest_eq h
  rw [heq] at hfound
  exact ⟨(hmem pointer).mp (maxByKey_mem hfound),
    fun other hother => le_maxByKey hfound other ((hmem other).mpr hother)⟩

/-- **Two searches with the same valid pointers find the same version**, and the
same pointer where the newest is one. -/
theorem getLatest_congr {τ' ν' : Type} [CloseNodes τ'] {rpc' : Rpc τ' ν'} {world' : World τ' ν'}
    {replies' : Contact → FindValue} (h : rpc.HearsLatest crypto domain package world replies)
    (h' : rpc'.HearsLatest crypto domain package world' replies')
    (hsame : ∀ pointer, rpc'.ValidReply crypto domain package world' replies' pointer
      ↔ rpc.ValidReply crypto domain package world replies pointer) :
    (rpc'.getLatest crypto domain package world').1.map (fun p => p.body.version)
        = (rpc.getLatest crypto domain package world).1.map (fun p => p.body.version)
      ∧ ((∀ p q, rpc.ValidReply crypto domain package world replies p →
          rpc.ValidReply crypto domain package world replies q →
          (∀ r, rpc.ValidReply crypto domain package world replies r →
            r.body.version ≤ p.body.version) →
          p.body.version = q.body.version → p = q) →
        (rpc'.getLatest crypto domain package world').1
          = (rpc.getLatest crypto domain package world).1) := by
  cases hfound : (rpc.getLatest crypto domain package world).1 with
  | none =>
    have hnone := (getLatest_eq_none_iff h').mpr fun pointer hvalid =>
      (getLatest_eq_none_iff h).mp hfound pointer ((hsame pointer).mp hvalid)
    rw [hnone]
    exact ⟨rfl, fun _ => rfl⟩
  | some p =>
    obtain ⟨hp, hmax⟩ := of_getLatest_eq_some h hfound
    cases hfound' : (rpc'.getLatest crypto domain package world').1 with
    | none => exact absurd ((hsame p).mpr hp) ((getLatest_eq_none_iff h').mp hfound' p)
    | some q =>
      obtain ⟨hq, hmax'⟩ := of_getLatest_eq_some h' hfound'
      have hversion : p.body.version = q.body.version :=
        le_antisymm (hmax' p ((hsame p).mpr hp)) (hmax q ((hsame q).mp hq))
      exact ⟨congrArg some hversion.symm,
        fun hunique => congrArg some (hunique p q hp ((hsame q).mp hq) hmax hversion).symm⟩

end Latest

/-- **The search for the latest pointer returns the newest valid one and
ignores everything else.** For every assignment of replies to the candidates
and every order they come in: nothing is returned exactly if DNS has no key or
no valid pointer is replied, and otherwise a newest one of those; and where
other replies to the same candidates differ only in what is not valid, the same
version is returned, and the same pointer if the newest is one.

A reply that is not a valid pointer of the package is dropped where it comes
in, and all candidates are asked whatever the others reply. An old pointer that
is still validly signed is a valid reply, and loses against a newer one; it
wins where no candidate has a newer one. -/
theorem getLatest_robust {τ ν : Type} [CloseNodes τ] (rpc : Rpc τ ν) (crypto : Crypto)
    (domain package : String) (world : World τ ν) (replies : Contact → FindValue)
    (h : rpc.HearsLatest crypto domain package world replies) :
    ((rpc.getLatest crypto domain package world).1 = none
        ↔ (rpc.getDnsVk domain world).1 = none
          ∨ ∀ pointer, ¬ rpc.ValidReply crypto domain package world replies pointer)
      ∧ (∀ pointer, (rpc.getLatest crypto domain package world).1 = some pointer →
        rpc.ValidReply crypto domain package world replies pointer
          ∧ ∀ other, rpc.ValidReply crypto domain package world replies other →
            other.body.version ≤ pointer.body.version)
      ∧ ∀ {τ' ν' : Type} [CloseNodes τ'] (rpc' : Rpc τ' ν') (world' : World τ' ν')
        (replies' : Contact → FindValue),
        rpc'.HearsLatest crypto domain package world' replies' →
        (rpc'.getDnsVk domain world').1 = (rpc.getDnsVk domain world).1 →
        (∀ c, c ∈ rpc'.latestTargets crypto domain package world'
          ↔ c ∈ rpc.latestTargets crypto domain package world) →
        (∀ owner, (rpc.getDnsVk domain world).1 = some owner →
          ∀ pointer, IsLatest crypto owner domain package pointer →
            ∀ c ∈ rpc.latestTargets crypto domain package world,
              (replies' c = .value (.latest pointer) ↔ replies c = .value (.latest pointer))) →
        (rpc'.getLatest crypto domain package world').1.map (fun p => p.body.version)
            = (rpc.getLatest crypto domain package world).1.map (fun p => p.body.version)
          ∧ ((∀ p q, rpc.ValidReply crypto domain package world replies p →
              rpc.ValidReply crypto domain package world replies q →
              (∀ r, rpc.ValidReply crypto domain package world replies r →
                r.body.version ≤ p.body.version) →
              p.body.version = q.body.version → p = q) →
            (rpc'.getLatest crypto domain package world').1
              = (rpc.getLatest crypto domain package world).1) := by
  refine ⟨?_, fun pointer => of_getLatest_eq_some h, ?_⟩
  · rw [getLatest_eq_none_iff h]
    refine ⟨Or.inr, fun hnone pointer hvalid => ?_⟩
    rcases hnone with hdns | hnone
    · obtain ⟨owner, howner, -⟩ := hvalid
      rw [hdns] at howner
      cases howner
    · exact hnone pointer hvalid
  · intro τ' ν' _ rpc' world' replies' h' hdns htargets hreplies
    refine getLatest_congr h h' fun pointer => ?_
    unfold Rpc.ValidReply
    rw [hdns]
    refine exists_congr fun owner => and_congr_right fun howner => and_congr_right fun hlatest => ?_
    constructor
    · rintro ⟨c, hc, hreply⟩
      have hc' := (htargets c).mp hc
      exact ⟨c, hc', (hreplies owner howner pointer hlatest c hc').mp hreply⟩
    · rintro ⟨c, hc, hreply⟩
      exact ⟨c, (htargets c).mpr hc, (hreplies owner howner pointer hlatest c hc).mpr hreply⟩

/-- The pointer of the second version is found behind the liar. -/
theorem getLatest_robust_sample :
    ∃ pointer, ((Sample.asking (.latest Sample.secondPointer)).getLatest Sample.crypto "a" "p"
        ⟨⟨[Sample.peer 1 8001, Sample.peer 2 8002]⟩, ()⟩).1 = some pointer
      ∧ Sample.secondPointer.body.version ≤ pointer.body.version := by
  obtain ⟨hnone, hsome, -⟩ := getLatest_robust (Sample.asking (.latest Sample.secondPointer))
    Sample.crypto "a" "p" ⟨⟨[Sample.peer 1 8001, Sample.peer 2 8002]⟩, ()⟩
    (Sample.lies (.latest Sample.secondPointer)) (by
      rintro owner howner
      cases howner
      unfold Rpc.Hears
      decide +kernel)
  have hvalid : (Sample.asking (.latest Sample.secondPointer)).ValidReply Sample.crypto "a" "p"
      ⟨⟨[Sample.peer 1 8001, Sample.peer 2 8002]⟩, ()⟩ (Sample.lies (.latest Sample.secondPointer))
      Sample.secondPointer :=
    ⟨Sample.owner, rfl, ⟨rfl, rfl, by decide +kernel⟩, Sample.peer 2 8002, by decide +kernel, rfl⟩
  cases hfound : ((Sample.asking (.latest Sample.secondPointer)).getLatest Sample.crypto "a" "p"
      ⟨⟨[Sample.peer 1 8001, Sample.peer 2 8002]⟩, ()⟩).1 with
  | none =>
    rcases hnone.mp hfound with hdns | hno
    · cases hdns
    · exact absurd hvalid (hno _)
  | some pointer => exact ⟨pointer, rfl, (hsome pointer hfound).2 _ hvalid⟩

end Kademlia
