import Mathlib

/-!
# Byte formats

A format of a type says how a value is written as bytes and how it is read
back from the front of a byte string. Writing may fail – a length that does
not fit its field – and reading leaves what follows alone, so a reader that
ignores what is left accepts trailing bytes.

The one law is part of the structure: what was written is read back,
whatever follows it. Every combinator below builds the law of the whole from
the laws of its parts, so a format put together from them is lawful by
construction. Two consequences are used throughout: a format writes
different values differently (`Codec.encode_injective`), also where more
bytes follow (`Codec.encode_append_inj`). The converse of the law, that what is
read is what would have been written, is not part of the structure: formats of
which it holds are `Codec.Canonical`.

The combinators are those of a fixed-width little-endian format with 64-bit
lengths and 32-bit variant tags.
-/

variable {α β γ : Type}

/-- **A byte format of `α`**, with its law. -/
structure Codec (α : Type) where
  /-- Write a value. -/
  encode : α → Option (List UInt8)
  /-- Read a value off the front, with what is left. -/
  decode : List UInt8 → Option (α × List UInt8)
  /-- What was written is read back, whatever follows. -/
  decode_encode : ∀ {a : α} {bs : List UInt8}, encode a = some bs →
    ∀ rest, decode (bs ++ rest) = some (a, rest)

namespace Codec

/-- Read a whole byte string, ignoring what is left. -/
def deserialize (c : Codec α) (bs : List UInt8) : Option α := (c.decode bs).map Prod.fst

theorem deserialize_encode (c : Codec α) {a : α} {bs : List UInt8} (h : c.encode a = some bs) :
    c.deserialize bs = some a := by
  have hdec := c.decode_encode h []
  rw [List.append_nil] at hdec
  unfold deserialize
  rw [hdec]
  rfl

/-- **Equal bytes with anything after them are one value, and equal rests.**
Reading gives back the value and the rest, and reading is a function of the
bytes. -/
theorem encode_append_inj (c : Codec α) {a b : α} {as bs r s : List UInt8}
    (ha : c.encode a = some as) (hb : c.encode b = some bs) (h : as ++ r = bs ++ s) :
    a = b ∧ r = s := by
  have hread := c.decode_encode ha r
  rw [h, c.decode_encode hb s] at hread
  have hpair := Option.some.inj hread
  exact ⟨(Prod.ext_iff.mp hpair).1.symm, (Prod.ext_iff.mp hpair).2.symm⟩

/-- **A format writes different values differently**, as it reads each of them
back. -/
theorem encode_injective (c : Codec α) {a b : α} {bs : List UInt8}
    (ha : c.encode a = some bs) (hb : c.encode b = some bs) : a = b :=
  (c.encode_append_inj ha hb (r := []) rfl).1

/-! ## One after another

A record is its fields one after another, and the type of a record is a product
under another name (`imap`). A type whose values are some of those of another
is read by reading the other and testing it (`refine`). -/

/-- Two values, the second after the first. -/
def prod (c : Codec α) (d : Codec β) : Codec (α × β) where
  encode p := do
    let as ← c.encode p.1
    let bs ← d.encode p.2
    some (as ++ bs)
  decode bs := do
    let (a, bs) ← c.decode bs
    let (b, bs) ← d.decode bs
    some ((a, b), bs)
  decode_encode := by
    intro p bs h rest
    obtain ⟨as, has, h⟩ := Option.bind_eq_some_iff.mp h
    obtain ⟨bs', hbs, h⟩ := Option.bind_eq_some_iff.mp h
    rw [← Option.some.inj h, List.append_assoc, c.decode_encode has]
    show (d.decode (bs' ++ rest) >>= fun q => some ((p.1, q.1), q.2)) = _
    rw [d.decode_encode hbs]
    rfl

/-- A format carried over to a type that reads back from `α`. -/
def imap (c : Codec α) (f : α → β) (g : β → α) (hfg : ∀ b, f (g b) = b) : Codec β where
  encode b := c.encode (g b)
  decode bs := (c.decode bs).map (fun p => (f p.1, p.2))
  decode_encode := by
    intro b bs h rest
    rw [c.decode_encode h rest]
    show some (f (g b), rest) = _
    rw [hfg]

/-- A format whose values a test refuses on reading. -/
def refine (c : Codec α) (f : α → Option β) (g : β → α) (hfg : ∀ b, f (g b) = some b) :
    Codec β where
  encode b := c.encode (g b)
  decode bs := do
    let (a, bs) ← c.decode bs
    let b ← f a
    some (b, bs)
  decode_encode := by
    intro b bs h rest
    rw [c.decode_encode h rest]
    show (f (g b) >>= fun b => some (b, rest)) = _
    rw [hfg]
    rfl

/-! ## Bytes and numbers

Numbers are of fixed width, lowest byte first. A number that does not fit its
width is not written at all, rather than cut. -/

/-- A single byte. -/
def byte : Codec UInt8 where
  encode b := some [b]
  decode
    | [] => none
    | b :: bs => some (b, bs)
  decode_encode := by
    intro b bs h rest
    rw [← Option.some.inj h]
    rfl

/-- The `w` lowest bytes of a number, lowest first. -/
def toLE : ℕ → ℕ → List UInt8
  | 0, _ => []
  | w + 1, n => UInt8.ofNat n :: toLE w (n / 256)

theorem length_toLE (w n : ℕ) : (toLE w n).length = w := by
  induction w generalizing n with
  | zero => rfl
  | succ w ih => rw [toLE, List.length_cons, ih]

/-- Read a number off `w` bytes, lowest first. -/
def ofLE : ℕ → List UInt8 → Option (ℕ × List UInt8)
  | 0, bs => some (0, bs)
  | _ + 1, [] => none
  | w + 1, b :: bs => (ofLE w bs).map (fun p => (b.toNat + 256 * p.1, p.2))

theorem ofLE_toLE (w n : ℕ) (h : n < 256 ^ w) (rest : List UInt8) :
    ofLE w (toLE w n ++ rest) = some (n, rest) := by
  induction w generalizing n with
  | zero => rw [Nat.lt_one_iff.mp h]; rfl
  | succ w ih =>
    have hn : n / 256 < 256 ^ w := Nat.div_lt_of_lt_mul (by rwa [pow_succ'] at h)
    unfold toLE ofLE
    rw [List.cons_append]
    dsimp only
    rw [ih _ hn]
    have hbyte : (UInt8.ofNat n).toNat + 256 * (n / 256) = n := by
      rw [UInt8.toNat_ofNat']
      exact Nat.mod_add_div n 256
    show some ((UInt8.ofNat n).toNat + 256 * (n / 256), rest) = _
    rw [hbyte]

/-- A number in `w` bytes, lowest first; a larger one is not written. -/
def le (w : ℕ) : Codec ℕ where
  encode n := if n < 256 ^ w then some (toLE w n) else none
  decode := ofLE w
  decode_encode := by
    intro n bs h rest
    obtain ⟨hn, h⟩ := Option.ite_none_right_eq_some.mp h
    rw [← Option.some.inj h]
    exact ofLE_toLE w n hn rest

/-- A 16-bit number. -/
def u16 : Codec UInt16 := (le 2).imap UInt16.ofNat UInt16.toNat (fun _ => UInt16.ofNat_toNat)

/-- A 32-bit number. -/
def u32 : Codec UInt32 := (le 4).imap UInt32.ofNat UInt32.toNat (fun _ => UInt32.ofNat_toNat)

/-! ## Repetition

A list is written after its length, in eight bytes. An array of known length is
written without one. -/

/-- Values written back to back. -/
def encodeMany (c : Codec α) : List α → Option (List UInt8)
  | [] => some []
  | a :: l => do
    let as ← c.encode a
    let bs ← c.encodeMany l
    some (as ++ bs)

/-- Read a given number of values off the front. -/
def decodeMany (c : Codec α) : ℕ → List UInt8 → Option (List α × List UInt8)
  | 0, bs => some ([], bs)
  | n + 1, bs => do
    let (a, bs) ← c.decode bs
    let (l, bs) ← c.decodeMany n bs
    some (a :: l, bs)

theorem decodeMany_encodeMany (c : Codec α) {l : List α} {bs : List UInt8}
    (h : c.encodeMany l = some bs) (rest : List UInt8) :
    c.decodeMany l.length (bs ++ rest) = some (l, rest) := by
  induction l generalizing bs with
  | nil => rw [← Option.some.inj h]; rfl
  | cons a l ih =>
    obtain ⟨as, has, h⟩ := Option.bind_eq_some_iff.mp h
    obtain ⟨bs', hbs, h⟩ := Option.bind_eq_some_iff.mp h
    rw [← Option.some.inj h, List.append_assoc, List.length_cons]
    unfold decodeMany
    rw [c.decode_encode has]
    show (c.decodeMany l.length (bs' ++ rest) >>= fun q => some (a :: q.1, q.2)) = _
    rw [ih hbs]
    rfl

/-- A list after its length, in eight bytes. -/
def vec (c : Codec α) : Codec (List α) where
  encode l := do
    let n ← (le 8).encode l.length
    let bs ← c.encodeMany l
    some (n ++ bs)
  decode bs := do
    let (n, bs) ← (le 8).decode bs
    c.decodeMany n bs
  decode_encode := by
    intro l bs h rest
    obtain ⟨n, hn, h⟩ := Option.bind_eq_some_iff.mp h
    obtain ⟨bs', hbs, h⟩ := Option.bind_eq_some_iff.mp h
    rw [← Option.some.inj h, List.append_assoc, (le 8).decode_encode hn]
    exact c.decodeMany_encodeMany hbs rest

/-- A fixed number of values, without a length. -/
def array (c : Codec α) (n : ℕ) : Codec (List.Vector α n) where
  encode v := c.encodeMany v.toList
  decode bs := do
    let (l, bs) ← c.decodeMany n bs
    if h : l.length = n then some (⟨l, h⟩, bs) else none
  decode_encode := by
    intro v bs h rest
    have hread := c.decodeMany_encodeMany h rest
    rw [v.toList_length] at hread
    rw [hread]
    show (if h : v.toList.length = n then some ((⟨v.toList, h⟩ : List.Vector α n), rest)
      else none) = _
    rw [dif_pos v.toList_length]
    rfl

/-! ## Text

A text is its bytes as a list. Not every list of bytes is one, so reading may
refuse where the list itself was read. -/

/-- The bytes of a text. -/
def textBytes (s : String) : List UInt8 := s.toByteArray.data.toList

/-- A text, if the bytes spell one. -/
def textOfBytes (bs : List UInt8) : Option String := String.fromUTF8? ⟨bs.toArray⟩

theorem textOfBytes_textBytes (s : String) : textOfBytes (textBytes s) = some s := by
  unfold textOfBytes textBytes String.fromUTF8?
  rw [dif_pos (show (⟨s.toByteArray.data.toList.toArray⟩ : ByteArray).IsValidUTF8 by
    rw [Array.toArray_toList]; exact s.isValidUTF8)]
  simp only [Array.toArray_toList]
  rfl

theorem textBytes_injective : Function.Injective textBytes := by
  intro s t h
  have hs := textOfBytes_textBytes s
  rw [h, textOfBytes_textBytes t] at hs
  exact (Option.some.inj hs).symm

/-- A text: its length in bytes, then the bytes. -/
def string : Codec String := (vec byte).refine textOfBytes textBytes textOfBytes_textBytes

/-! ## Alternatives

A variant is told by a tag of four bytes, the number of the variant. Two
variants are all that is needed, and every other tag is refused. -/

/-- One of two formats, told apart by a 32-bit tag. -/
def sum (c : Codec α) (d : Codec β) : Codec (α ⊕ β) where
  encode
    | .inl a => do
      let bs ← c.encode a
      some (toLE 4 0 ++ bs)
    | .inr b => do
      let bs ← d.encode b
      some (toLE 4 1 ++ bs)
  decode bs := do
    let (tag, bs) ← ofLE 4 bs
    match tag with
    | 0 => (c.decode bs).map (fun p => (.inl p.1, p.2))
    | 1 => (d.decode bs).map (fun p => (.inr p.1, p.2))
    | _ => none
  decode_encode := by
    intro x bs h rest
    cases x with
    | inl a =>
      obtain ⟨as, has, h⟩ := Option.bind_eq_some_iff.mp h
      rw [← Option.some.inj h, List.append_assoc, ofLE_toLE 4 0 (by norm_num)]
      show (c.decode (as ++ rest)).map _ = _
      rw [c.decode_encode has]
      rfl
    | inr b =>
      obtain ⟨bs', hbs, h⟩ := Option.bind_eq_some_iff.mp h
      rw [← Option.some.inj h, List.append_assoc, ofLE_toLE 4 1 (by norm_num)]
      show (d.decode (bs' ++ rest)).map _ = _
      rw [d.decode_encode hbs]
      rfl

/-! ## Sizes

A datagram is bounded, so a writer has to know how long a value can get. `Fits
c n` says both that every value can be written and that it takes at most `n`
bytes, and the combinators add up. -/

/-- Every value is written, in at most `n` bytes. -/
def Fits (c : Codec α) (n : ℕ) : Prop := ∀ a, ∃ bs, c.encode a = some bs ∧ bs.length ≤ n

variable {c : Codec α} {d : Codec β} {m n : ℕ}

theorem fits_byte : byte.Fits 1 := fun b => ⟨[b], rfl, le_rfl⟩

theorem fits_u16 : u16.Fits 2 := fun a =>
  ⟨toLE 2 a.toNat, if_pos a.toNat_lt, (length_toLE 2 _).le⟩

theorem Fits.imap (hc : c.Fits n) (f : α → β) (g : β → α) (hfg : ∀ b, f (g b) = b) :
    (c.imap f g hfg).Fits n := fun b => hc (g b)

theorem Fits.prod (hc : c.Fits m) (hd : d.Fits n) : (c.prod d).Fits (m + n) := by
  intro p
  obtain ⟨as, has, hm⟩ := hc p.1
  obtain ⟨bs, hbs, hn⟩ := hd p.2
  refine ⟨as ++ bs, ?_, by rw [List.length_append]; omega⟩
  show (c.encode p.1 >>= fun as => d.encode p.2 >>= fun bs => some (as ++ bs)) = _
  rw [has, hbs]
  rfl

theorem Fits.sum (hc : c.Fits m) (hd : d.Fits n) : (c.sum d).Fits (4 + max m n) := by
  intro x
  cases x with
  | inl a =>
    obtain ⟨as, has, hm⟩ := hc a
    refine ⟨toLE 4 0 ++ as, ?_, by rw [List.length_append, length_toLE]; omega⟩
    show (c.encode a >>= fun as => some (toLE 4 0 ++ as)) = _
    rw [has]
    rfl
  | inr b =>
    obtain ⟨bs, hbs, hn⟩ := hd b
    refine ⟨toLE 4 1 ++ bs, ?_, by rw [List.length_append, length_toLE]; omega⟩
    show (d.encode b >>= fun bs => some (toLE 4 1 ++ bs)) = _
    rw [hbs]
    rfl

theorem Fits.encodeMany (hc : c.Fits n) (l : List α) :
    ∃ bs, c.encodeMany l = some bs ∧ bs.length ≤ n * l.length := by
  induction l with
  | nil => exact ⟨[], rfl, Nat.zero_le _⟩
  | cons a l ih =>
    obtain ⟨as, has, hn⟩ := hc a
    obtain ⟨bs, hbs, hlen⟩ := ih
    refine ⟨as ++ bs, ?_, ?_⟩
    · unfold Codec.encodeMany
      rw [has, hbs]
      rfl
    · rw [List.length_append, List.length_cons, Nat.mul_succ]
      omega

theorem Fits.array (hc : c.Fits n) (k : ℕ) : (c.array k).Fits (n * k) := by
  intro v
  obtain ⟨bs, hbs, hlen⟩ := hc.encodeMany v.toList
  exact ⟨bs, hbs, by rwa [v.toList_length] at hlen⟩

/-- A list is written if its length is, and how long it gets. -/
theorem Fits.encode_vec (hc : c.Fits n) {l : List α} (hl : l.length < 256 ^ 8) :
    ∃ bs, c.vec.encode l = some bs ∧ bs.length ≤ 8 + n * l.length := by
  obtain ⟨bs, hbs, hlen⟩ := hc.encodeMany l
  refine ⟨toLE 8 l.length ++ bs, ?_, by rw [List.length_append, length_toLE]; omega⟩
  have hle : (le 8).encode l.length = some (toLE 8 l.length) := if_pos hl
  show ((le 8).encode l.length >>= fun ns => c.encodeMany l >>= fun bs => some (ns ++ bs)) = _
  rw [hle, hbs]
  rfl

/-! ## One spelling

A format is canonical if what it reads off the front of a byte string is what it
would have written for the value. Then bytes that are accepted spell their
value in the only way there is, up to what follows; and what was once read can
be written again. -/

/-- **What is read is what would have been written.** -/
def Canonical (c : Codec α) : Prop := ∀ (bs : List UInt8) (a : α) (rest : List UInt8),
  c.decode bs = some (a, rest) → ∃ front, c.encode a = some front ∧ bs = front ++ rest

/-- The bytes of a value that was read whole: its spelling, and what follows. -/
theorem Canonical.deserialize (hc : c.Canonical) {bs : List UInt8} {a : α}
    (h : c.deserialize bs = some a) :
    ∃ front rest, c.encode a = some front ∧ bs = front ++ rest := by
  obtain ⟨⟨a', rest⟩, hdec, rfl⟩ := Option.map_eq_some_iff.mp h
  obtain ⟨front, henc, hbs⟩ := hc _ _ _ hdec
  exact ⟨front, rest, henc, hbs⟩

theorem canonical_byte : byte.Canonical := by
  intro bs b rest h
  cases bs with
  | nil => cases h
  | cons x bs =>
    cases h
    exact ⟨[b], rfl, rfl⟩

/-- The bytes a number was read off are its lowest bytes. -/
theorem toLE_of_ofLE {w : ℕ} {bs rest : List UInt8} {n : ℕ} (h : ofLE w bs = some (n, rest)) :
    n < 256 ^ w ∧ bs = toLE w n ++ rest := by
  induction w generalizing bs n with
  | zero =>
    cases h
    exact ⟨Nat.one_pos, rfl⟩
  | succ w ih =>
    cases bs with
    | nil => cases h
    | cons b bs =>
      obtain ⟨⟨m, rest'⟩, hm, heq⟩ := Option.map_eq_some_iff.mp h
      cases heq
      obtain ⟨hlt, rfl⟩ := ih hm
      have hb : b.toNat < 256 := b.toNat_lt
      have hlow : UInt8.ofNat (b.toNat + 256 * m) = b :=
        UInt8.toNat_inj.mp (by rw [UInt8.toNat_ofNat']; omega)
      have hhigh : (b.toNat + 256 * m) / 256 = m := by omega
      refine ⟨by rw [pow_succ']; omega, ?_⟩
      show _ = UInt8.ofNat (b.toNat + 256 * m) :: toLE w ((b.toNat + 256 * m) / 256) ++ rest'
      rw [hlow, hhigh]
      rfl

theorem canonical_le (w : ℕ) : (le w).Canonical := by
  intro bs n rest h
  obtain ⟨hlt, hbs⟩ := toLE_of_ofLE h
  exact ⟨toLE w n, if_pos hlt, hbs⟩

/-- Carrying a format over loses no spelling where nothing is forgotten. -/
theorem Canonical.imap (hc : c.Canonical) {f : α → β} {g : β → α} (hfg : ∀ b, f (g b) = b)
    (hgf : ∀ bs a rest, c.decode bs = some (a, rest) → g (f a) = a) :
    (c.imap f g hfg).Canonical := by
  intro bs b rest h
  obtain ⟨⟨a, rest'⟩, hdec, heq⟩ := Option.map_eq_some_iff.mp h
  cases heq
  obtain ⟨front, henc, hbs⟩ := hc _ _ _ hdec
  refine ⟨front, ?_, hbs⟩
  show c.encode (g (f a)) = some front
  rw [hgf bs a _ hdec, henc]

theorem canonical_u16 : u16.Canonical :=
  (canonical_le 2).imap _ fun _ _ _ h => UInt16.toNat_ofNat_of_lt' (toLE_of_ofLE h).1

theorem canonical_u32 : u32.Canonical :=
  (canonical_le 4).imap _ fun _ _ _ h => UInt32.toNat_ofNat_of_lt' (toLE_of_ofLE h).1

theorem Canonical.prod (hc : c.Canonical) (hd : d.Canonical) : (c.prod d).Canonical := by
  intro bs p rest h
  obtain ⟨⟨a, bs'⟩, ha, h⟩ := Option.bind_eq_some_iff.mp h
  obtain ⟨⟨b, rest'⟩, hb, h⟩ := Option.bind_eq_some_iff.mp h
  cases h
  obtain ⟨front, hfront, rfl⟩ := hc _ _ _ ha
  obtain ⟨back, hback, rfl⟩ := hd _ _ _ hb
  refine ⟨front ++ back, ?_, (List.append_assoc ..).symm⟩
  show (c.encode a >>= fun as => d.encode b >>= fun bs => some (as ++ bs)) = _
  rw [hfront, hback]
  rfl

/-- A test on reading keeps one spelling where it changes none. -/
theorem Canonical.refine (hc : c.Canonical) {f : α → Option β} {g : β → α}
    (hfg : ∀ b, f (g b) = some b) (hgf : ∀ a b, f a = some b → g b = a) :
    (c.refine f g hfg).Canonical := by
  intro bs b rest h
  obtain ⟨⟨a, rest'⟩, ha, h⟩ := Option.bind_eq_some_iff.mp h
  obtain ⟨b', hb, h⟩ := Option.bind_eq_some_iff.mp h
  cases h
  obtain ⟨front, hfront, hbs⟩ := hc _ _ _ ha
  refine ⟨front, ?_, hbs⟩
  show c.encode (g b) = some front
  rw [hgf a b hb, hfront]

theorem Canonical.decodeMany (hc : c.Canonical) {k : ℕ} {bs rest : List UInt8} {l : List α}
    (h : c.decodeMany k bs = some (l, rest)) :
    l.length = k ∧ ∃ front, c.encodeMany l = some front ∧ bs = front ++ rest := by
  induction k generalizing bs l with
  | zero =>
    cases h
    exact ⟨rfl, [], rfl, rfl⟩
  | succ k ih =>
    obtain ⟨⟨a, bs'⟩, ha, h⟩ := Option.bind_eq_some_iff.mp h
    obtain ⟨⟨l', rest'⟩, hl, h⟩ := Option.bind_eq_some_iff.mp h
    cases h
    obtain ⟨front, hfront, rfl⟩ := hc _ _ _ ha
    obtain ⟨hlen, back, hback, rfl⟩ := ih hl
    refine ⟨congrArg Nat.succ hlen, front ++ back, ?_, (List.append_assoc ..).symm⟩
    unfold Codec.encodeMany
    rw [hfront, hback]
    rfl

theorem Canonical.vec (hc : c.Canonical) : c.vec.Canonical := by
  intro bs l rest h
  obtain ⟨⟨k, bs'⟩, hk, hl⟩ := Option.bind_eq_some_iff.mp h
  obtain ⟨ns, hns, rfl⟩ := canonical_le 8 _ _ _ hk
  obtain ⟨rfl, front, hfront, rfl⟩ := hc.decodeMany hl
  refine ⟨ns ++ front, ?_, (List.append_assoc ..).symm⟩
  show ((le 8).encode l.length >>= fun ns => c.encodeMany l >>= fun bs => some (ns ++ bs)) = _
  rw [hns, hfront]
  rfl

theorem Canonical.array (hc : c.Canonical) (k : ℕ) : (c.array k).Canonical := by
  intro bs v rest h
  obtain ⟨⟨l, rest'⟩, hl, hv⟩ := Option.bind_eq_some_iff.mp h
  obtain ⟨hlen, front, hfront, hbs⟩ := hc.decodeMany hl
  have hread : some ((⟨l, hlen⟩ : List.Vector α k), rest') = some (v, rest) :=
    (dif_pos hlen).symm.trans hv
  cases hread
  exact ⟨front, hfront, hbs⟩

/-- The bytes that spell a text are its bytes. -/
theorem textBytes_of_textOfBytes {bs : List UInt8} {s : String} (h : textOfBytes bs = some s) :
    textBytes s = bs := by
  unfold textOfBytes String.fromUTF8? at h
  split at h
  · cases h
    rfl
  · cases h

theorem canonical_string : string.Canonical :=
  canonical_byte.vec.refine _ fun _ _ h => textBytes_of_textOfBytes h

theorem Canonical.sum (hc : c.Canonical) (hd : d.Canonical) : (c.sum d).Canonical := by
  intro bs x rest h
  obtain ⟨⟨tag, bs'⟩, htag, h⟩ := Option.bind_eq_some_iff.mp h
  obtain ⟨-, rfl⟩ := toLE_of_ofLE htag
  match tag, h with
  | 0, h =>
    obtain ⟨⟨a, rest'⟩, ha, heq⟩ := Option.map_eq_some_iff.mp h
    cases heq
    obtain ⟨front, hfront, rfl⟩ := hc _ _ _ ha
    refine ⟨toLE 4 0 ++ front, ?_, (List.append_assoc ..).symm⟩
    show (c.encode a >>= fun as => some (toLE 4 0 ++ as)) = _
    rw [hfront]
    rfl
  | 1, h =>
    obtain ⟨⟨b, rest'⟩, hb, heq⟩ := Option.map_eq_some_iff.mp h
    cases heq
    obtain ⟨front, hfront, rfl⟩ := hd _ _ _ hb
    refine ⟨toLE 4 1 ++ front, ?_, (List.append_assoc ..).symm⟩
    show (d.encode b >>= fun bs => some (toLE 4 1 ++ bs)) = _
    rw [hfront]
    rfl

end Codec
