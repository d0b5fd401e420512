import Mathlib

/-!
# Splitting text, and decimal numerals

Text is cut at a separator, once from the front or once from the back, and
numbers are read from it in decimal. Cutting once is characterised by what it
leaves: the first cut has a part without the separator in front of it, the last
one behind it.

A numeral is what the reader of an unsigned number takes: one digit or more,
after a plus sign or not, with leading zeros or not. It reads digit by digit and
stops where the value passes the bound. As further digits only make it larger,
that is to say that the value of the numeral passes it (`readNumeral_eq_some_iff`).
-/

namespace Text

section Split

variable {α : Type} [DecidableEq α] {c : α} {l a b : List α}

/-- Cut at the first occurrence of a separator. -/
def splitOnce (c : α) : List α → Option (List α × List α)
  | [] => none
  | x :: l => if x = c then some ([], l) else (splitOnce c l).map (fun p => (x :: p.1, p.2))

/-- Cut at the last occurrence of a separator. -/
def rsplitOnce (c : α) (l : List α) : Option (List α × List α) :=
  (splitOnce c l.reverse).map (fun p => (p.2.reverse, p.1.reverse))

/-- **The first cut** has no separator in front of it, and that determines
it. -/
theorem splitOnce_eq_some_iff : splitOnce c l = some (a, b) ↔ l = a ++ c :: b ∧ c ∉ a := by
  induction l generalizing a with
  | nil => simp [splitOnce]
  | cons x l ih =>
    unfold splitOnce
    by_cases hx : x = c
    · subst hx
      rw [if_pos rfl, Option.some.injEq, Prod.mk.injEq]
      constructor
      · rintro ⟨rfl, rfl⟩
        exact ⟨rfl, List.not_mem_nil⟩
      · rintro ⟨heq, hnot⟩
        cases a with
        | nil => exact ⟨rfl, (List.cons.inj heq).2⟩
        | cons y a => exact absurd (List.cons.inj heq).1 (fun h => hnot (h ▸ List.mem_cons_self))
    · rw [if_neg hx, Option.map_eq_some_iff]
      constructor
      · rintro ⟨⟨a', b'⟩, hsplit, heq⟩
        cases heq
        obtain ⟨rfl, hnot⟩ := ih.mp hsplit
        exact ⟨rfl, fun h => (List.mem_cons.mp h).elim (fun h => hx h.symm) hnot⟩
      · rintro ⟨heq, hnot⟩
        cases a with
        | nil => exact absurd (List.cons.inj heq).1 hx
        | cons y a =>
          obtain ⟨rfl, rfl⟩ := List.cons.inj heq
          exact ⟨(a, b), ih.mpr ⟨rfl, fun h => hnot (List.mem_cons_of_mem _ h)⟩, rfl⟩

/-- **The last cut** has no separator behind it: it is the first cut of the
reverse. -/
theorem rsplitOnce_eq_some_iff : rsplitOnce c l = some (a, b) ↔ l = a ++ c :: b ∧ c ∉ b := by
  unfold rsplitOnce
  rw [Option.map_eq_some_iff]
  constructor
  · rintro ⟨⟨back, front⟩, hsplit, heq⟩
    cases heq
    obtain ⟨hl, hnot⟩ := splitOnce_eq_some_iff.mp hsplit
    refine ⟨?_, fun h => hnot (List.mem_reverse.mp h)⟩
    rw [← List.reverse_reverse l, hl, List.reverse_append, List.reverse_cons, List.append_assoc]
    rfl
  · rintro ⟨rfl, hnot⟩
    refine ⟨(b.reverse, a.reverse), splitOnce_eq_some_iff.mpr ⟨?_, ?_⟩, ?_⟩
    · rw [List.reverse_append, List.reverse_cons, List.append_assoc]
      rfl
    · exact fun h => hnot (List.mem_reverse.mp h)
    · rw [List.reverse_reverse, List.reverse_reverse]

end Split

section Numeral

variable {bound n : ℕ} {cs : List Char}

/-- Read digits one by one, after those that gave `value`. -/
def readDigits (bound : ℕ) : (value : ℕ) → List Char → Option ℕ
  | value, [] => some value
  | value, c :: cs =>
    if c.isDigit then
      let value := 10 * value + (c.toNat - '0'.toNat)
      if value < bound then readDigits bound value cs else none
    else none

/-- Read an unsigned number below a bound. -/
def readNumeral (bound : ℕ) : List Char → Option ℕ
  | [] => none
  | '+' :: cs => if cs.isEmpty then none else readDigits bound 0 cs
  | cs => readDigits bound 0 cs

/-- **A numeral** of a number: digits, with a plus sign in front of them or not. -/
def Numeral (cs : List Char) (n : ℕ) : Prop :=
  ∃ digits, (cs = digits ∨ cs = '+' :: digits) ∧ digits ≠ []
    ∧ (∀ c ∈ digits, c.isDigit = true) ∧ Nat.ofDigitChars 10 digits 0 = n

/-- More digits make a larger number. -/
theorem le_ofDigitChars (cs : List Char) (value : ℕ) :
    value ≤ Nat.ofDigitChars 10 cs value := by
  induction cs generalizing value with
  | nil => exact le_rfl
  | cons c cs ih =>
    rw [Nat.ofDigitChars_cons]
    exact le_trans (by omega) (ih _)

theorem readDigits_eq_some_iff {value : ℕ} (hvalue : value < bound) :
    readDigits bound value cs = some n
      ↔ (∀ c ∈ cs, c.isDigit = true) ∧ Nat.ofDigitChars 10 cs value = n ∧ n < bound := by
  induction cs generalizing value with
  | nil =>
    rw [readDigits, Option.some.injEq, Nat.ofDigitChars_nil]
    constructor
    · rintro rfl
      exact ⟨fun _ h => absurd h List.not_mem_nil, rfl, hvalue⟩
    · rintro ⟨-, rfl, -⟩
      rfl
  | cons c cs ih =>
    rw [readDigits, Nat.ofDigitChars_cons, List.forall_mem_cons]
    by_cases hdigit : c.isDigit = true
    · rw [if_pos hdigit, and_iff_right hdigit]
      dsimp only
      by_cases hlt : 10 * value + (c.toNat - '0'.toNat) < bound
      · rw [if_pos hlt]
        exact ih hlt
      · -- what passes the bound stays beyond it
        rw [if_neg hlt]
        refine iff_of_false (fun h => by cases h) ?_
        rintro ⟨-, rfl, hn⟩
        exact hlt ((le_ofDigitChars cs _).trans_lt hn)
    · rw [if_neg hdigit]
      exact iff_of_false (fun h => by cases h) (fun h => hdigit h.1.1)

/-- **Exactly the numerals below the bound are read.** The reader gives up at
the first digit that takes the value past the bound. No digit takes it back, so
giving up early refuses only what would be refused at the end. -/
theorem readNumeral_eq_some_iff (hbound : 0 < bound) :
    readNumeral bound cs = some n ↔ Numeral cs n ∧ n < bound := by
  have hplus : ¬ '+'.isDigit = true := by decide
  unfold readNumeral
  split
  · refine iff_of_false (fun h => by cases h) ?_
    rintro ⟨⟨digits, rfl | h, hne, -⟩, -⟩
    · exact hne rfl
    · cases h
  · next cs =>
    constructor
    · intro h
      split at h
      · cases h
      · next hne =>
        obtain ⟨hdigits, hvalue, hlt⟩ := (readDigits_eq_some_iff hbound).mp h
        exact ⟨⟨cs, Or.inr rfl, fun h => hne (List.isEmpty_iff.mpr h), hdigits, hvalue⟩, hlt⟩
    · rintro ⟨⟨digits, hcs, hne, hdigits, hvalue⟩, hlt⟩
      rcases hcs with rfl | hcs
      · exact absurd (hdigits _ List.mem_cons_self) hplus
      · cases hcs
        rw [if_neg (fun h => hne (List.isEmpty_iff.mp h))]
        exact (readDigits_eq_some_iff hbound).mpr ⟨hdigits, hvalue, hlt⟩
  · next hnil hsign =>
    rw [readDigits_eq_some_iff hbound]
    constructor
    · rintro ⟨hdigits, hvalue, hlt⟩
      exact ⟨⟨cs, Or.inl rfl, hnil, hdigits, hvalue⟩, hlt⟩
    · rintro ⟨⟨digits, hcs, -, hdigits, hvalue⟩, hlt⟩
      rcases hcs with rfl | rfl
      · exact ⟨hdigits, hvalue, hlt⟩
      · exact absurd rfl (hsign digits)

/-- A number in decimal is a numeral. -/
theorem numeral_toDigits (n : ℕ) : Numeral (Nat.toDigits 10 n) n :=
  ⟨_, Or.inl rfl, Nat.toDigits_ne_nil,
    fun _ h => Nat.isDigit_of_mem_toDigits (by decide) (by decide) h,
    Nat.ofDigitChars_ten_toDigits⟩

/-- A numeral has nothing in it but digits and a sign. -/
theorem Numeral.not_mem (h : Numeral cs n) {c : Char} (hdigit : c.isDigit = false)
    (hsign : c ≠ '+') : c ∉ cs := by
  obtain ⟨digits, rfl | rfl, -, hdigits, -⟩ := h
  · exact fun hc => absurd (hdigits c hc) (by rw [hdigit]; decide)
  · intro hc
    rcases List.mem_cons.mp hc with hc | hc
    · exact hsign hc
    · exact absurd (hdigits c hc) (by rw [hdigit]; decide)

end Numeral

end Text
