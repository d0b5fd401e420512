import Mathlib

/-!
# The `k` elements of least key

A table that answers "the `k` nearest" sorts candidates by a key, drops
repetitions, and truncates. This module says what such an answer is, apart from
how it was computed, and what the three steps contribute.

`Selects f k S r` says that `r` lists, in increasing order of the key `f`, the
`k` elements of `S` of least key – all of them if there are fewer. A list with
this property is unique (`Selects.unique`), and it can be computed in stages:
selecting from a selection of `S` together with `T` selects from `S ∪ T`
(`Selects.union`). That is the one fact behind every early truncation: what a
first truncation drops could not have survived the last.

## Computing a selection

`sortBy` and `dedupBy` are the stable sort and the removal of adjacent
repetitions that selections are computed with. Sorting is stable
(`filter_sortBy`), so after both steps the element kept for a key is the first
of the input with that key (`find?_of_mem_dedupBy_sortBy`). A list that is
already a selection takes in one element more by an insertion in order
(`Selects.insert`), and nothing needs to be sorted again.

## Searching for one

A selection from a set nobody has a list of can still be found, by asking
elements for others they know of. Such a search knows a part `T` of the set,
and what it returns is a selection from `T`. It is one from the whole set if
everyone it returns has been asked and gave an answer that leads on (`Leads`,
`Selects.of_leads`). The condition is on single answers, and nothing is said
about the order in which they come in.
-/

variable {α ω : Type} [LinearOrder ω]

namespace Nearest

/-- **`r` is the `k` elements of `S` of least key `f`**, in increasing
order: nothing outside `S`, no more than `k`, and whatever of `S` is left
out is beyond a full list. -/
structure Selects (f : α → ω) (k : ℕ) (S : Set α) (r : List α) : Prop where
  /-- The list is strictly increasing in the key. -/
  sorted : r.Pairwise (fun a b => f a < f b)
  /-- Every entry is an element of the set. -/
  subset : ∀ a ∈ r, a ∈ S
  /-- There are at most `k` entries. -/
  length_le : r.length ≤ k
  /-- An element left out is farther than all of a full list. -/
  least : ∀ a ∈ S, a ∈ r ∨ (r.length = k ∧ ∀ b ∈ r, f b < f a)

omit [LinearOrder ω] in
theorem encard_of_nodup {l : List α} (h : l.Nodup) : {a | a ∈ l}.encard = l.length := by
  classical
  rw [← List.coe_toFinset, Set.encard_coe_eq_coe_finsetCard, List.toFinset_card_of_nodup h]

namespace Selects

variable {f : α → ω} {k : ℕ} {S T : Set α} {r r' : List α}

theorem nodup (h : Selects f k S r) : r.Nodup :=
  h.sorted.imp (fun hab he => absurd (congrArg f he) hab.ne)

/-- As many are selected as there are, up to `k`. -/
theorem length_eq (h : Selects f k S r) : (r.length : ℕ∞) = min (k : ℕ∞) S.encard := by
  have hsub : {a | a ∈ r} ⊆ S := h.subset
  have hle : (r.length : ℕ∞) ≤ S.encard := by
    rw [← encard_of_nodup h.nodup]
    exact Set.encard_le_encard hsub
  by_cases hfull : r.length = k
  · rw [min_eq_left (hfull ▸ hle), hfull]
  · -- nothing is left out of a list that is not full
    have hall : S = {a | a ∈ r} := Set.Subset.antisymm
      (fun a ha => (h.least a ha).resolve_right fun hout => hfull hout.1) hsub
    rw [hall, encard_of_nodup h.nodup, min_eq_right (Nat.cast_le.mpr h.length_le)]

/-- Two selections from one set have the same members. -/
theorem mem_of_mem (h : Selects f k S r) (h' : Selects f k S r') {a : α}
    (ha : a ∈ r) : a ∈ r' := by
  by_contra hna
  obtain ⟨hfull, hlt⟩ := (h'.least a (h.subset a ha)).resolve_left hna
  -- then `r'` is full and inside `r`, which holds `a` besides
  have hsub : r' ⊆ r := by
    intro b hb
    rcases h.least b (h'.subset b hb) with hbr | ⟨-, hbeyond⟩
    · exact hbr
    · exact absurd (hlt b hb) (hbeyond a ha).asymm
  have hcons : (a :: r') ⊆ r := List.cons_subset.mpr ⟨ha, hsub⟩
  have hlen : (a :: r').length ≤ r.length :=
    ((List.nodup_cons.mpr ⟨hna, h'.nodup⟩).subperm hcons).length_le
  have := h.length_le
  rw [List.length_cons] at hlen
  omega

/-- **A selection is unique.** Two selections from one set have the same
members, and a strictly increasing list is determined by its members. -/
theorem unique (h : Selects f k S r) (h' : Selects f k S r') : r = r' := by
  have hirr : Std.Irrefl (fun a b : α => f a < f b) := ⟨fun _ => lt_irrefl _⟩
  have hanti : Std.Antisymm (fun a b : α => f a < f b) :=
    ⟨fun _ _ hab hba => absurd hab hba.asymm⟩
  exact List.Pairwise.eq_of_mem_iff h.sorted h'.sorted
    (fun _ => ⟨fun ha => mem_of_mem h h' ha, fun ha => mem_of_mem h' h ha⟩)

/-- A full selection whose members all survive in another is that other. -/
theorem mem_of_subset_of_full (h : Selects f k S r) (hfull : r.length = k)
    (h' : Selects f k T r') (hsub : r ⊆ r') {c : α} (hc : c ∈ r') : c ∈ r := by
  by_contra hnc
  have hcons : (c :: r) ⊆ r' := List.cons_subset.mpr ⟨hc, hsub⟩
  have hlen : (c :: r).length ≤ r'.length :=
    ((List.nodup_cons.mpr ⟨hnc, h.nodup⟩).subperm hcons).length_le
  have := h'.length_le
  rw [List.length_cons] at hlen
  omega

/-- **Selecting in stages.** A selection from what a first selection kept
together with `T` is a selection from everything: what the first truncation
dropped could not have survived the second. -/
theorem union (h : Selects f k S r) (h' : Selects f k ({a | a ∈ r} ∪ T) r') :
    Selects f k (S ∪ T) r' := by
  refine ⟨h'.sorted, fun a ha => ?_, h'.length_le, fun a ha => ?_⟩
  · exact (h'.subset a ha).imp (fun har => h.subset a har) id
  · rcases ha with haS | haT
    · rcases h.least a haS with har | ⟨hfull, hbeyond⟩
      · exact h'.least a (Or.inl har)
      · right
        by_cases hsub : r ⊆ r'
        · -- the first selection survived whole, so the second is the first
          have hlen : r.length ≤ r'.length := (h.nodup.subperm hsub).length_le
          exact ⟨le_antisymm h'.length_le (hfull ▸ hlen), fun c hc =>
            hbeyond c (mem_of_subset_of_full h hfull h' hsub hc)⟩
        · -- some member was pushed out, and `a` is beyond that member
          obtain ⟨b, hb, hnb⟩ : ∃ b ∈ r, b ∉ r' := by simpa [List.subset_def] using hsub
          obtain ⟨hfull', hlt⟩ := (h'.least b (Or.inl hb)).resolve_left hnb
          exact ⟨hfull', fun c hc => (hlt c hc).trans (hbeyond b hb)⟩
    · exact h'.least a (Or.inr haT)

/-- A selection from a set is one from any smaller set it lies in. -/
theorem of_subset (h : Selects f k S r) (hTS : T ⊆ S) (hr : ∀ a ∈ r, a ∈ T) :
    Selects f k T r :=
  ⟨h.sorted, hr, h.length_le, fun a ha => h.least a (hTS ha)⟩

/-- A selection under other names, which keep the key. -/
theorem map {β : Type} (h : Selects f k S r) (name : α → β) {d : β → ω}
    (hd : ∀ a, f a = d (name a)) : Selects d k {i | ∃ a ∈ S, name a = i} (r.map name) := by
  refine ⟨List.pairwise_map.mpr (h.sorted.imp (fun hab => by rwa [hd, hd] at hab)), ?_,
    (List.length_map name).trans_le h.length_le, ?_⟩
  · intro i hi
    obtain ⟨a, ha, rfl⟩ := List.mem_map.mp hi
    exact ⟨a, h.subset a ha, rfl⟩
  · rintro i ⟨a, ha, rfl⟩
    refine (h.least a ha).imp (fun har => List.mem_map.mpr ⟨a, har, rfl⟩) ?_
    rintro ⟨hfull, hlt⟩
    refine ⟨(List.length_map name).trans hfull, fun j hj => ?_⟩
    obtain ⟨b, hb, rfl⟩ := List.mem_map.mp hj
    rw [← hd, ← hd]
    exact hlt b hb

/-- Where `k` elements lie below a bound, a selection of `k` lies below it. -/
theorem lt_of_le_length (h : Selects f k S r) {l : List α} {w : ω} (hl : l.Nodup)
    (hsub : ∀ a ∈ l, a ∈ S ∧ f a < w) (hk : k ≤ l.length) {b : α} (hb : b ∈ r) :
    f b < w := by
  by_contra hge
  have hlr : l ⊆ r := fun a ha =>
    (h.least a (hsub a ha).1).resolve_right
      (fun hout => hge ((hout.2 b hb).trans (hsub a ha).2))
  have hbl : b ∉ l := fun hbl => hge (hsub b hbl).2
  have hlen : (b :: l).length ≤ r.length :=
    ((List.nodup_cons.mpr ⟨hbl, hl⟩).subperm (List.cons_subset.mpr ⟨hb, hlr⟩)).length_le
  have := h.length_le
  rw [List.length_cons] at hlen
  omega

/-- **Who is selected**: the elements with fewer than `k` others before them.
Whatever comes before a member is a member too, of which there are at most `k`;
and whoever is left out has a full list of `k` before it. -/
theorem mem_iff_encard_lt (h : Selects f k S r) {a : α} (ha : a ∈ S) :
    a ∈ r ↔ {b ∈ S | f b < f a}.encard < k := by
  constructor
  · intro har
    have hsub : {b ∈ S | f b < f a} ⊆ {b | b ∈ r} \ {a} := by
      rintro b ⟨hb, hlt⟩
      refine ⟨(h.least b hb).resolve_right (fun hout => ?_), fun hba => ?_⟩
      · exact absurd (hout.2 a har) hlt.asymm
      · exact absurd (congrArg f hba) hlt.ne
    have hone := Set.encard_sdiff_singleton_add_one (s := {b | b ∈ r}) har
    rw [encard_of_nodup h.nodup] at hone
    have hfin : ({b | b ∈ r} \ {a}).encard ≠ ⊤ := by
      intro htop
      rw [htop] at hone
      exact absurd hone (by simp)
    calc {b ∈ S | f b < f a}.encard ≤ ({b | b ∈ r} \ {a}).encard := Set.encard_le_encard hsub
      _ < ({b | b ∈ r} \ {a}).encard + 1 := (ENat.lt_add_one_iff hfin).mpr le_rfl
      _ = r.length := hone
      _ ≤ k := by exact_mod_cast h.length_le
  · intro hlt
    by_contra hnar
    obtain ⟨hfull, hbefore⟩ := (h.least a ha).resolve_left hnar
    have hsub : {b | b ∈ r} ⊆ {b ∈ S | f b < f a} := fun b hb => ⟨h.subset b hb, hbefore b hb⟩
    have hle := Set.encard_le_encard hsub
    rw [encard_of_nodup h.nodup, hfull] at hle
    exact absurd hlt (not_lt.mpr hle)

/-- **When looking at a part is enough.** Selecting from a part `T` of the
elements of `l` selects from all of them exactly when each element outside `T`
has `k` others before it.

An element outside `T` is in no selection from `T`, so it has to be left out of
the selection from everything, which means that a full list is before it.
Conversely, where no element outside `T` is selected, the selection from
everything lies in `T` and is the one from `T`. -/
theorem eq_iff_of_subset {l : List α} (hl : l.Nodup) (h : Selects f k {a | a ∈ l} r)
    (hTS : T ⊆ {a | a ∈ l}) (h' : Selects f k T r') :
    r' = r ↔ ∀ x ∈ l, x ∉ T → k ≤ (l.filter (fun a => f a < f x)).length := by
  constructor
  · rintro rfl x hx hxT
    obtain ⟨hfull, hlt⟩ := (h.least x hx).resolve_left (fun hxr => hxT (h'.subset x hxr))
    have hsub : r' ⊆ l.filter (fun a => f a < f x) := fun b hb =>
      List.mem_filter.mpr ⟨h.subset b hb, by simpa using hlt b hb⟩
    exact hfull ▸ (h.nodup.subperm hsub).length_le
  · intro hout
    refine h'.unique (h.of_subset hTS (fun a ha => ?_))
    by_contra haT
    refine lt_irrefl (f a) (h.lt_of_le_length (hl.filter _) (fun b hb => ?_)
      (hout a (h.subset a ha) haT) ha)
    obtain ⟨hbl, hba⟩ := List.mem_filter.mp hb
    exact ⟨hbl, by simpa using hba⟩

end Selects

/-- **A truncated strictly increasing list is a selection** from what it was
truncated from. -/
theorem selects_take {f : α → ω} {l : List α}
    (h : l.Pairwise (fun a b => f a < f b)) (k : ℕ) :
    Selects f k {a | a ∈ l} (l.take k) := by
  refine ⟨h.sublist (List.take_sublist k l), fun a ha => List.mem_of_mem_take ha,
    List.length_take_le k l, fun a ha => ?_⟩
  have hmem : a ∈ l.take k ++ l.drop k := by rw [List.take_append_drop]; exact ha
  refine (List.mem_append.mp hmem).imp id (fun hd => ⟨?_, fun b hb => ?_⟩)
  · have hpos := List.length_pos_of_mem hd
    rw [List.length_drop] at hpos
    rw [List.length_take]
    omega
  · have hsplit := h
    rw [← List.take_append_drop k l, List.pairwise_append] at hsplit
    exact hsplit.2.2 b hb a hd

/-! ## Inserting into a selection -/

/-- Inserting where a test first fails splits the list there. -/
theorem insertIdx_length_takeWhile {β : Type} (p : β → Bool) (c : β) (l : List β) :
    l.insertIdx (l.takeWhile p).length c = l.takeWhile p ++ c :: l.dropWhile p := by
  induction l with
  | nil => rfl
  | cons a l ih =>
    by_cases h : p a = true
    · rw [List.takeWhile_cons_of_pos h, List.dropWhile_cons_of_pos h, List.length_cons,
        List.insertIdx_succ_cons, ih]
      rfl
    · rw [List.takeWhile_cons_of_neg h, List.dropWhile_cons_of_neg h]
      rfl

/-- **Inserting before the first element that is not nearer keeps a list
increasing.** -/
theorem sorted_insert {f : α → ω} {l : List α} (h : l.Pairwise (fun a b => f a < f b))
    {c : α} (hc : ∀ a ∈ l, f a ≠ f c) :
    (l.takeWhile (fun a => f a < f c) ++ c :: l.dropWhile (fun a => f a < f c)).Pairwise
      (fun a b => f a < f b) := by
  induction l with
  | nil => exact List.pairwise_singleton _ c
  | cons a l ih =>
    obtain ⟨hal, hl⟩ := List.pairwise_cons.mp h
    by_cases hac : f a < f c
    · rw [List.takeWhile_cons_of_pos (by simpa using hac),
        List.dropWhile_cons_of_pos (by simpa using hac), List.cons_append]
      refine List.pairwise_cons.mpr ⟨fun b hb => ?_,
        ih hl (fun b hb => hc b (List.mem_cons_of_mem a hb))⟩
      rcases List.mem_append.mp hb with hb | hb
      · exact hal b ((List.takeWhile_sublist _).subset hb)
      · rcases List.mem_cons.mp hb with rfl | hb
        · exact hac
        · exact hal b ((List.dropWhile_sublist _).subset hb)
    · have hca : f c < f a :=
        lt_of_le_of_ne (not_lt.mp hac) (hc a List.mem_cons_self).symm
      rw [List.takeWhile_cons_of_neg (by simpa using hac),
        List.dropWhile_cons_of_neg (by simpa using hac), List.nil_append]
      refine List.pairwise_cons.mpr ⟨fun b hb => ?_, h⟩
      rcases List.mem_cons.mp hb with rfl | hb
      · exact hca
      · exact hca.trans (hal b hb)

omit [LinearOrder ω] in
theorem mem_takeWhile_append_cons_dropWhile {p : α → Bool} {c x : α} {l : List α} :
    x ∈ l.takeWhile p ++ c :: l.dropWhile p ↔ x = c ∨ x ∈ l := by
  rw [List.mem_append, List.mem_cons, or_left_comm, ← List.mem_append,
    List.takeWhile_append_dropWhile]

/-- **A selection takes in one element more** by inserting it in order and
dropping what exceeds `k`. The list that is inserted into is a selection, so by
`Selects.union` nothing that it dropped before has to be looked at again. -/
theorem Selects.insert {f : α → ω} {k : ℕ} {S : Set α} {r : List α}
    (h : Selects f k S r) {c : α} (hc : ∀ a ∈ r, f a ≠ f c) :
    Selects f k (S ∪ {c})
      ((r.takeWhile (fun a => f a < f c) ++ c :: r.dropWhile (fun a => f a < f c)).take k) := by
  refine h.union ?_
  have hset : ({a | a ∈ r} ∪ {c} : Set α) = {a | a ∈ r.takeWhile (fun a => f a < f c)
      ++ c :: r.dropWhile (fun a => f a < f c)} := by
    ext x
    show (x ∈ r ∨ x = c) ↔ _
    rw [or_comm]
    exact mem_takeWhile_append_cons_dropWhile.symm
  rw [hset]
  exact selects_take (sorted_insert h.sorted hc) k

/-! ## Sorting and removing repetitions -/

/-- A stable sort by a comparison function. -/
def sortBy (cmp : α → α → Ordering) (l : List α) : List α :=
  l.insertionSort (fun a b => (cmp a b).isLE = true)

/-- A list sorted by a property has all that lacks it first. -/
theorem eq_filter_append_filter {p : α → Bool} {l : List α}
    (h : l.Pairwise (fun a b => p a ≤ p b)) : l = l.filter (fun a => !p a) ++ l.filter p := by
  induction l with
  | nil => rfl
  | cons a l ih =>
    obtain ⟨ha, hl⟩ := List.pairwise_cons.mp h
    cases hp : p a with
    | false =>
      rw [List.filter_cons_of_pos (by rw [hp]; rfl), List.filter_cons_of_neg (by simp [hp]),
        List.cons_append, ← ih hl]
    | true =>
      have hall : ∀ b ∈ a :: l, p b = true := by
        refine List.forall_mem_cons.mpr ⟨hp, fun b hb => ?_⟩
        exact Bool.eq_true_of_true_le (hp ▸ ha b hb)
      rw [List.filter_eq_self.mpr hall, List.filter_eq_nil_iff.mpr (by simpa using hall),
        List.nil_append]

/-- Dropping, from every run of adjacent elements `same` identifies, all but
the first. -/
def dedupBy (same : α → α → Bool) (l : List α) : List α :=
  l.destutter (fun a b => ¬ same b a = true)

section

omit [LinearOrder ω]

theorem sortBy_perm (cmp : α → α → Ordering) (l : List α) : (sortBy cmp l).Perm l :=
  List.perm_insertionSort _ l

@[simp] theorem mem_sortBy {cmp : α → α → Ordering} {l : List α} {a : α} :
    a ∈ sortBy cmp l ↔ a ∈ l := (sortBy_perm cmp l).mem_iff

theorem dedupBy_sublist (same : α → α → Bool) (l : List α) :
    (dedupBy same l).Sublist l := List.destutter_sublist _ l

/-- Removing repetitions does not change the first element that passes a test
that repetitions pass alike. -/
theorem find?_dedupBy {same : α → α → Bool} {p : α → Bool}
    (hp : ∀ a b, same a b = true → p a = p b) (l : List α) :
    (dedupBy same l).find? p = l.find? p := by
  have hrun : ∀ (l : List α) (a : α),
      (l.destutter' (fun a b => ¬ same b a = true) a).find? p = (a :: l).find? p := by
    intro l
    induction l with
    | nil => exact fun _ => rfl
    | cons b l ih =>
      intro a
      by_cases hs : same b a = true
      · rw [List.destutter'_cons_neg (R := fun a b => ¬ same b a = true) l (not_not.mpr hs), ih,
          List.find?_cons, List.find?_cons, List.find?_cons, hp b a hs]
        cases p a <;> rfl
      · rw [List.destutter'_cons_pos (R := fun a b => ¬ same b a = true) l hs, List.find?_cons,
          List.find?_cons, ih]
  cases l with
  | nil => rfl
  | cons a l => exact hrun l a

end

variable {f : α → ω} {cmp : α → α → Ordering}

/-- A comparison by a key is the order of the keys. -/
theorem isLE_iff (hcmp : ∀ a b, cmp a b = compare (f a) (f b)) (a b : α) :
    (cmp a b).isLE = true ↔ f a ≤ f b := by
  rw [hcmp, ← compare_le_iff_le, Ordering.isLE_iff_ne_gt]

/-- Sorting by a key leaves the keys in order. -/
theorem sortBy_sorted (hcmp : ∀ a b, cmp a b = compare (f a) (f b)) (l : List α) :
    (sortBy cmp l).Pairwise (fun a b => f a ≤ f b) := by
  have htotal : Std.Total (fun a b : α => (cmp a b).isLE = true) :=
    ⟨fun a b => by rw [isLE_iff hcmp, isLE_iff hcmp]; exact le_total _ _⟩
  have htrans : IsTrans α (fun a b => (cmp a b).isLE = true) :=
    ⟨fun a b c => by
      rw [isLE_iff hcmp, isLE_iff hcmp, isLE_iff hcmp]; exact le_trans⟩
  exact (List.pairwise_insertionSort (fun a b => (cmp a b).isLE = true) l).imp
    (fun {a b} h => (isLE_iff hcmp a b).mp h)

/-- Inserting into a sorted list puts an element before its equals. -/
theorem filter_orderedInsert (hcmp : ∀ a b, cmp a b = compare (f a) (f b)) (a : α)
    (w : ω) : ∀ {l : List α}, l.Pairwise (fun a b => f a ≤ f b) →
      (l.orderedInsert (fun a b => (cmp a b).isLE = true) a).filter (fun x => f x = w)
        = (a :: l).filter (fun x => f x = w)
  | [], _ => rfl
  | b :: l, hl => by
    rw [List.orderedInsert_cons]
    by_cases hab : (cmp a b).isLE = true
    · rw [if_pos hab]
    · rw [if_neg hab]
      have hba : f b < f a := not_le.mp (fun h => hab ((isLE_iff hcmp a b).mpr h))
      have ih := filter_orderedInsert hcmp a w (List.pairwise_cons.mp hl).2
      by_cases ha : f a = w
      · -- what comes before `a` has a smaller key than `w`
        have hb : ¬ f b = w := fun hbw => absurd (hbw.trans ha.symm) hba.ne
        rw [List.filter_cons_of_neg (by simpa using hb), ih]
        simp [ha, hb]
      · rw [List.filter_cons, ih]
        simp only [ha, decide_false, Bool.false_eq_true, List.filter_cons, if_false]

/-- **Sorting is stable**: the elements of one key keep their order. For the
sort by insertion this is one fact about one insertion, that an element comes
before its equals (`filter_orderedInsert`). -/
theorem filter_sortBy (hcmp : ∀ a b, cmp a b = compare (f a) (f b)) (w : ω)
    (l : List α) :
    (sortBy cmp l).filter (fun x => f x = w) = l.filter (fun x => f x = w) := by
  induction l with
  | nil => rfl
  | cons a l ih =>
    have hins := filter_orderedInsert hcmp a w (sortBy_sorted hcmp l)
    calc (sortBy cmp (a :: l)).filter (fun x => f x = w)
        = (a :: sortBy cmp l).filter (fun x => f x = w) := hins
      _ = (a :: l).filter (fun x => f x = w) := by
          rw [List.filter_cons, List.filter_cons, ih]

variable {same : α → α → Bool}

/-- What removing repetitions from a sorted list leaves: a strictly
increasing list, with the first element of each key, and every key. -/
theorem destutter_sorted (hsame : ∀ a b, same a b = true ↔ f a = f b) :
    ∀ (l : List α) (a : α), (a :: l).Pairwise (fun a b => f a ≤ f b) →
      (l.destutter' (fun a b => ¬ same b a = true) a).Pairwise (fun a b => f a < f b)
      ∧ (∀ b ∈ l.destutter' (fun a b => ¬ same b a = true) a,
          (a :: l).find? (fun x => f x = f b) = some b)
      ∧ ∀ x ∈ a :: l, ∃ b ∈ l.destutter' (fun a b => ¬ same b a = true) a, f b = f x
  | [], a, _ => by simp
  | c :: l, a, h => by
    have hac : f a ≤ f c := (List.pairwise_cons.mp h).1 c List.mem_cons_self
    by_cases hs : same c a = true
    · -- `c` repeats `a`, and drops out
      have hkey : f c = f a := (hsame c a).mp hs
      have htail : (a :: l).Pairwise (fun a b => f a ≤ f b) :=
        h.sublist (List.Sublist.cons_cons a (List.sublist_cons_self c l))
      obtain ⟨hsort, hfind, hall⟩ := destutter_sorted hsame l a htail
      rw [List.destutter'_cons_neg (R := fun a b => ¬ same b a = true) l (not_not.mpr hs)]
      refine ⟨hsort, fun b hb => ?_, fun x hx => ?_⟩
      · have hfb := hfind b hb
        rw [List.find?_cons] at hfb ⊢
        by_cases hab : f a = f b
        · simpa [hab] using hfb
        · rw [List.find?_cons]
          simpa [hab, hkey] using hfb
      · rcases List.mem_cons.mp hx with rfl | hx
        · exact hall x List.mem_cons_self
        · rcases List.mem_cons.mp hx with rfl | hx
          · obtain ⟨b, hb, hbx⟩ := hall a List.mem_cons_self
            exact ⟨b, hb, hbx.trans hkey.symm⟩
          · exact hall x (List.mem_cons_of_mem a hx)
    · have hlt : f a < f c :=
        lt_of_le_of_ne hac (fun he => hs ((hsame c a).mpr he.symm))
      obtain ⟨hsort, hfind, hall⟩ := destutter_sorted hsame l c (List.pairwise_cons.mp h).2
      have hbeyond : ∀ b ∈ l.destutter' (fun a b => ¬ same b a = true) c, f a < f b := by
        intro b hb
        have hmem := (List.destutter'_sublist l (fun a b => ¬ same b a = true) c).subset hb
        rcases List.mem_cons.mp hmem with rfl | hmem
        · exact hlt
        · exact hlt.trans_le
            ((List.pairwise_cons.mp (List.pairwise_cons.mp h).2).1 b hmem)
      rw [List.destutter'_cons_pos (R := fun a b => ¬ same b a = true) l hs]
      refine ⟨List.pairwise_cons.mpr ⟨hbeyond, hsort⟩, fun b hb => ?_, fun x hx => ?_⟩
      · rcases List.mem_cons.mp hb with rfl | hb
        · simp
        · rw [List.find?_cons]
          simpa [(hbeyond b hb).ne] using hfind b hb
      · rcases List.mem_cons.mp hx with rfl | hx
        · exact ⟨x, List.mem_cons_self, rfl⟩
        · obtain ⟨b, hb, hbx⟩ := hall x hx
          exact ⟨b, List.mem_cons_of_mem a hb, hbx⟩

section Selection

variable (hcmp : ∀ a b, cmp a b = compare (f a) (f b))
  (hsame : ∀ a b, same a b = true ↔ f a = f b)

include hcmp hsame

/-- Sorting and removing repetitions leaves the keys strictly increasing. -/
theorem dedupBy_sortBy_sorted (l : List α) :
    (dedupBy same (sortBy cmp l)).Pairwise (fun a b => f a < f b) := by
  have hsort := sortBy_sorted hcmp l
  revert hsort
  cases sortBy cmp l with
  | nil => exact fun _ => List.Pairwise.nil
  | cons a s => exact fun hsort => (destutter_sorted hsame s a hsort).1

/-- **Of the elements of one key, the first is kept.** -/
theorem find?_of_mem_dedupBy_sortBy {l : List α} {b : α}
    (hb : b ∈ dedupBy same (sortBy cmp l)) :
    l.find? (fun x => f x = f b) = some b := by
  have hsort := sortBy_sorted hcmp l
  have hfind : (sortBy cmp l).find? (fun x => f x = f b) = some b := by
    revert hsort hb
    cases sortBy cmp l with
    | nil => exact fun hb => absurd hb List.not_mem_nil
    | cons a s => exact fun hb hsort => (destutter_sorted hsame s a hsort).2.1 b hb
  rw [← List.head?_filter] at hfind ⊢
  rwa [filter_sortBy hcmp] at hfind

/-- No key is lost. -/
theorem exists_mem_dedupBy_sortBy {l : List α} {x : α} (hx : x ∈ l) :
    ∃ b ∈ dedupBy same (sortBy cmp l), f b = f x := by
  have hsort := sortBy_sorted hcmp l
  have hmem : x ∈ sortBy cmp l := mem_sortBy.mpr hx
  revert hsort hmem
  cases sortBy cmp l with
  | nil => exact fun _ hmem => absurd hmem List.not_mem_nil
  | cons a s => exact fun hsort hmem => (destutter_sorted hsame s a hsort).2.2 x hmem

/-- **What is left is, of each key, the first element.** So the result depends
on the input only through what `find?` finds in it. -/
theorem mem_dedupBy_sortBy {l : List α} {b : α} :
    b ∈ dedupBy same (sortBy cmp l) ↔ l.find? (fun x => f x = f b) = some b := by
  refine ⟨find?_of_mem_dedupBy_sortBy hcmp hsame, fun hfind => ?_⟩
  obtain ⟨b', hb', hkey⟩ := exists_mem_dedupBy_sortBy hcmp hsame (List.mem_of_find?_eq_some hfind)
  have hfind' := find?_of_mem_dedupBy_sortBy hcmp hsame hb'
  rw [hkey, hfind] at hfind'
  exact Option.some.inj hfind' ▸ hb'

/-- **Removing repetitions early changes nothing**: whether or not one of the
two inputs has been rid of repetitions before they are joined, the first
element of each key is the same. -/
theorem dedupBy_sortBy_append (l m : List α) :
    dedupBy same (sortBy cmp (dedupBy same l ++ m)) = dedupBy same (sortBy cmp (l ++ m)) := by
  have hirr : Std.Irrefl (fun a b : α => f a < f b) := ⟨fun _ => lt_irrefl _⟩
  have hanti : Std.Antisymm (fun a b : α => f a < f b) :=
    ⟨fun _ _ hab hba => absurd hab hba.asymm⟩
  refine List.Pairwise.eq_of_mem_iff (dedupBy_sortBy_sorted hcmp hsame _)
    (dedupBy_sortBy_sorted hcmp hsame _) (fun b => ?_)
  rw [mem_dedupBy_sortBy hcmp hsame, mem_dedupBy_sortBy hcmp hsame, List.find?_append,
    List.find?_append, find?_dedupBy (fun x y hxy => by rw [(hsame x y).mp hxy])]

/-- **Sorting, removing repetitions and truncating selects the names of
least key.** An element is named by `name`, the key depends on the name
alone and tells names apart; elements of one name may differ otherwise. -/
theorem selects_dedupBy_sortBy_map {β : Type} (name : α → β) {d : β → ω}
    (hd : ∀ a, f a = d (name a)) (hinj : Function.Injective d) (k : ℕ) (l : List α) :
    Selects d k {i | ∃ a ∈ l, name a = i}
      (((dedupBy same (sortBy cmp l)).take k).map name) := by
  have hsorted : ((dedupBy same (sortBy cmp l)).map name).Pairwise (fun i j => d i < d j) :=
    List.pairwise_map.mpr ((dedupBy_sortBy_sorted hcmp hsame l).imp
      (fun hab => by rwa [hd, hd] at hab))
  have hset : {i | ∃ a ∈ l, name a = i}
      = {i | i ∈ (dedupBy same (sortBy cmp l)).map name} := by
    ext i
    rw [Set.mem_ofPred_eq, Set.mem_ofPred_eq, List.mem_map]
    constructor
    · rintro ⟨a, ha, rfl⟩
      obtain ⟨b, hb, hba⟩ := exists_mem_dedupBy_sortBy hcmp hsame ha
      exact ⟨b, hb, hinj (by rwa [hd, hd] at hba)⟩
    · rintro ⟨a, ha, rfl⟩
      exact ⟨a, mem_sortBy.mp ((dedupBy_sublist same _).subset ha), rfl⟩
  rw [List.map_take, hset]
  exact selects_take hsorted k

/-- Where elements of one key are equal, the elements themselves are
selected. -/
theorem selects_dedupBy_sortBy (k : ℕ) {l : List α}
    (hinj : ∀ a ∈ l, ∀ b ∈ l, f a = f b → a = b) :
    Selects f k {a | a ∈ l} ((dedupBy same (sortBy cmp l)).take k) := by
  have hset : {a | a ∈ l} = {a | a ∈ dedupBy same (sortBy cmp l)} := by
    ext a
    refine ⟨fun ha => ?_, fun ha => mem_sortBy.mp ((dedupBy_sublist same _).subset ha)⟩
    obtain ⟨b, hb, hba⟩ := exists_mem_dedupBy_sortBy hcmp hsame ha
    have hbl : b ∈ l := mem_sortBy.mp ((dedupBy_sublist same _).subset hb)
    exact hinj b hbl a ha hba ▸ hb
  rw [hset]
  exact selects_take (dedupBy_sortBy_sorted hcmp hsame l) k

omit hsame in
/-- Without repetitions, sorting and truncating is enough. -/
theorem selects_sortBy (k : ℕ) {l : List α} (hl : l.Pairwise (fun a b => f a ≠ f b)) :
    Selects f k {a | a ∈ l} ((sortBy cmp l).take k) := by
  have hne : (sortBy cmp l).Pairwise (fun a b => f a ≠ f b) :=
    ((sortBy_perm cmp l).pairwise_iff (fun h => h.symm)).mpr hl
  have hlt : (sortBy cmp l).Pairwise (fun a b => f a < f b) :=
    (sortBy_sorted hcmp l).imp₂ (fun _ _ hle hne => lt_of_le_of_ne hle hne) hne
  have hset : {a | a ∈ l} = {a | a ∈ sortBy cmp l} := by
    ext a
    exact mem_sortBy.symm
  rw [hset]
  exact selects_take hlt k

end Selection

/-! ## Searching by asking

The `k` elements of least key can be searched for without a list of them all:
who is known is asked for others, the nearest first. The search ends when the
`k` nearest heard of have all been asked. What their answers have to be for the
result to be right is said of each answer on its own. -/

/-- **Of what is nearer than all else, a selection has everything or nothing
else.** If one element of `P` is left out the list is full of nearer ones, and
what is outside `Q` is not nearer. -/
theorem Selects.segment {f : α → ω} {k : ℕ} {S : Set α} {r : List α} (h : Selects f k S r)
    {P Q : Set α} (hS : P ⊆ S) (hnearer : ∀ y ∈ P, ∀ z ∈ S, z ∉ Q → f y < f z) :
    (∀ y ∈ P, y ∈ r) ∨ (r.length = k ∧ ∀ z ∈ r, z ∈ Q) := by
  by_cases hall : ∀ y ∈ P, y ∈ r
  · exact Or.inl hall
  · push Not at hall
    obtain ⟨y, hy, hout⟩ := hall
    obtain ⟨hfull, hbeyond⟩ := (h.least y (hS hy)).resolve_left hout
    refine Or.inr ⟨hfull, fun z hz => ?_⟩
    by_contra hzQ
    exact (hnearer y hy z (h.subset z hz) hzQ).asymm (hbeyond z hz)

/-- **An answer of `a` that leads on**: it names every other element of `S`, or
`k` of them; and where `a` is not among the `k` nearest and the answer leaves
out one nearer than `a`, all it names are nearer than `a`. The last condition
is asked only of those who are not among the nearest: an answer of one of the
`k` nearest need not lead anywhere nearer, and in general cannot. -/
def Leads (f : α → ω) (k : ℕ) (S : Set α) (a : α) (answer : List α) : Prop :=
  ∀ x ∈ S, x ≠ a → x ∈ answer ∨ (k ≤ answer.length
    ∧ (k ≤ {y ∈ S | f y < f a}.encard → f x < f a → ∀ y ∈ answer, f y < f a))

/-- **A search that has asked everyone it returns has found the nearest**, if
their answers lead on and it has heard all of them.

Suppose an element `x` was not heard of. The answer of the last one returned,
`a`, does not name it, and so names `k` others, all of them heard of; hence the
list is full. If `x` were nearer than `a`, then `a` would not be among the `k`
nearest, and all of its answer would be nearer than `a`: `k` elements heard of
that come before the last of `k`, which is impossible. So `x` is farther than
all that is returned. -/
theorem Selects.of_leads {f : α → ω} {k : ℕ} {S T : Set α} {r : List α}
    (h : Selects f k T r) (hf : Function.Injective f) (hTS : T ⊆ S) (hne : r ≠ [])
    (hasked : ∀ a ∈ r, ∃ answer, answer.Nodup ∧ (∀ y ∈ answer, y ∈ T) ∧ Leads f k S a answer) :
    Selects f k S r := by
  refine ⟨h.sorted, fun a ha => hTS (h.subset a ha), h.length_le, fun x hx => ?_⟩
  by_cases hxT : x ∈ T
  · exact h.least x hxT
  -- whoever was not heard of is not in the answer of the last
  obtain ⟨init, a, rfl⟩ := (List.eq_nil_or_concat' r).resolve_left hne
  have ha : a ∈ init ++ [a] := List.mem_append_right _ List.mem_cons_self
  have hinit : ∀ b ∈ init, f b < f a := fun b hb =>
    (List.pairwise_append.mp h.sorted).2.2 b hb a List.mem_cons_self
  obtain ⟨answer, hnodup, hheard, hleads⟩ := hasked a ha
  have hxa : x ≠ a := fun hxa => hxT (hxa ▸ h.subset a ha)
  obtain ⟨hfull, hnear⟩ := (hleads x hx hxa).resolve_left (fun hxan => hxT (hheard x hxan))
  have hlen : (init ++ [a]).length = k := by
    by_contra hshort
    have hsub : answer ⊆ init ++ [a] := fun y hy =>
      (h.least y (hheard y hy)).resolve_right (fun hout => hshort hout.1)
    exact hshort (le_antisymm h.length_le (hfull.trans (hnodup.subperm hsub).length_le))
  refine Or.inr ⟨hlen, ?_⟩
  rcases lt_or_gt_of_ne (fun he => hxa (hf he) : f x ≠ f a) with hlt | hgt
  · -- then the last is not among the nearest, and all of its answer is nearer
    have hmany : (k : ℕ∞) ≤ {y ∈ S | f y < f a}.encard := by
      have hnodup' : (x :: init).Nodup := List.nodup_cons.mpr
        ⟨fun hxi => hxT (h.subset x (List.mem_append_left _ hxi)),
          h.nodup.sublist (List.sublist_append_left _ _)⟩
      rw [← hlen, List.length_append, List.length_singleton, ← List.length_cons (a := x),
        ← encard_of_nodup hnodup']
      refine Set.encard_le_encard fun y hy => ?_
      rcases List.mem_cons.mp hy with rfl | hy
      · exact ⟨hx, hlt⟩
      · exact ⟨hTS (h.subset y (List.mem_append_left _ hy)), hinit y hy⟩
    exact absurd (h.lt_of_le_length hnodup
      (fun y hy => ⟨hheard y hy, hnear hmany hlt y hy⟩) hfull ha) (lt_irrefl _)
  · intro b hb
    rcases List.mem_append.mp hb with hb | hb
    · exact (hinit b hb).trans hgt
    · rwa [List.mem_singleton.mp hb]

end Nearest
