import Mathlib

/-!
# Chains of records linked by key

Each record names the one before it by key, and a reserved key marks the
first. A reader that starts at a key and follows the links gets a list that
is *linked* from that key: every element has the key its predecessor in the
list names, and the last names the reserved key.

Where keys tell the records at hand apart, a key determines the list linked
from it (`Linked.unique`), and a list that contains a record of some key
contains, as a suffix, everything linked from that key
(`Linked.suffix_of_mem`). So remembering the key of a head is remembering
the whole history below it.
-/

variable {α κ : Type}

namespace HashChain

/-- Keys tell the elements of a set apart. -/
def KeyInjOn (key : α → Option κ) (S : Set α) : Prop :=
  ∀ a ∈ S, ∀ b ∈ S, ∀ k, key a = some k → key b = some k → a = b

/-- **A list linked from a key down to a reserved one.** -/
inductive Linked (key : α → Option κ) (prev : α → κ) (stop : κ) : κ → List α → Prop
  /-- The first record ever, which names the reserved key. -/
  | last {k : κ} {a : α} (hkey : key a = some k) (hprev : prev a = stop) :
      Linked key prev stop k [a]
  /-- A record on top of the list linked from the key it names. -/
  | cons {k : κ} {a : α} {l : List α} (hkey : key a = some k) (hprev : prev a ≠ stop)
      (hl : Linked key prev stop (prev a) l) : Linked key prev stop k (a :: l)

namespace Linked

variable {key : α → Option κ} {prev : α → κ} {stop k k' : κ} {l l' : List α} {S : Set α}

/-- The head of a linked list has the key it is linked from. -/
theorem key_head (h : Linked key prev stop k l) : ∃ a, l.head? = some a ∧ key a = some k := by
  cases h with
  | last hkey _ => exact ⟨_, rfl, hkey⟩
  | cons hkey _ _ => exact ⟨_, rfl, hkey⟩

/-- **Below a key there is one list only.** The heads have one key and so are
one record; it names one predecessor, and the rest is the same argument again.
The induction is on either list, with the other generalised. -/
theorem unique (hinj : KeyInjOn key S) (h : Linked key prev stop k l)
    (h' : Linked key prev stop k l') (hl : ∀ a ∈ l, a ∈ S) (hl' : ∀ a ∈ l', a ∈ S) :
    l = l' := by
  induction h generalizing l' with
  | last hkey hprev =>
    cases h' with
    | last hkey' _ =>
      rw [hinj _ (hl _ List.mem_cons_self) _ (hl' _ List.mem_cons_self) _ hkey hkey']
    | cons hkey' hprev' _ =>
      have heq := hinj _ (hl _ List.mem_cons_self) _ (hl' _ List.mem_cons_self) _ hkey hkey'
      exact absurd (heq ▸ hprev) hprev'
  | cons hkey hprev _ ih =>
    cases h' with
    | last hkey' hprev' =>
      have heq := hinj _ (hl _ List.mem_cons_self) _ (hl' _ List.mem_cons_self) _ hkey hkey'
      exact absurd (heq ▸ hprev') hprev
    | cons hkey' _ htail =>
      have heq := hinj _ (hl _ List.mem_cons_self) _ (hl' _ List.mem_cons_self) _ hkey hkey'
      subst heq
      rw [ih htail (fun a ha => hl a (List.mem_cons_of_mem _ ha))
        (fun a ha => hl' a (List.mem_cons_of_mem _ ha))]

/-- What stands below an element of a linked list is linked from its key. -/
theorem of_mem (h : Linked key prev stop k l) {a : α} (ha : a ∈ l) :
    ∃ k' post, key a = some k' ∧ a :: post <:+ l ∧ Linked key prev stop k' (a :: post) := by
  induction h with
  | last hkey hprev =>
    obtain rfl := List.mem_singleton.mp ha
    exact ⟨_, [], hkey, List.suffix_rfl, .last hkey hprev⟩
  | cons hkey hprev hl ih =>
    rcases List.mem_cons.mp ha with rfl | ha
    · exact ⟨_, _, hkey, List.suffix_rfl, .cons hkey hprev hl⟩
    · obtain ⟨k', post, hk', hsuf, hlink⟩ := ih ha
      exact ⟨k', post, hk', hsuf.trans (List.suffix_cons _ _), hlink⟩

/-- So is a linked list from any position on. -/
theorem drop (h : Linked key prev stop k l) {i : ℕ} {a : α} (ha : l[i]? = some a) :
    ∃ k', key a = some k' ∧ Linked key prev stop k' (l.drop i) := by
  induction h generalizing i with
  | last hkey hprev =>
    cases i with
    | zero => exact ⟨_, Option.some.inj ha ▸ hkey, .last hkey hprev⟩
    | succ i => cases ha
  | cons hkey hprev hl ih =>
    cases i with
    | zero => exact ⟨_, Option.some.inj ha ▸ hkey, .cons hkey hprev hl⟩
    | succ i => exact ih ha

/-- **A list that contains a key's record contains the whole list below it**,
as a suffix. What stands below the record in the list is linked from its key,
and so is the other list. -/
theorem suffix_of_mem (hinj : KeyInjOn key S) (h : Linked key prev stop k l)
    (h' : Linked key prev stop k' l') (hl : ∀ a ∈ l, a ∈ S) (hl' : ∀ a ∈ l', a ∈ S)
    {a : α} (ha : a ∈ l) (hk : key a = some k') : l' <:+ l := by
  obtain ⟨k'', post, hk'', hsuf, hlink⟩ := h.of_mem ha
  obtain rfl : k'' = k' := Option.some.inj (hk''.symm.trans hk)
  rwa [h'.unique hinj hlink hl' (fun b hb => hl b (hsuf.subset hb))]

end Linked

end HashChain
