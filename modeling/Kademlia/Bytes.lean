import Mathlib

/-!
# Byte strings read as big-endian numbers

A byte string of a fixed width is compared byte by byte, combined byte by
byte with exclusive or, and scanned for leading zero bits byte by byte. Read
as a number, most significant byte first, the three operations are the order
of `ℕ`, `^^^` on `ℕ`, and a count derived from the bit length `Nat.size`.

The second half is about that exclusive or as a distance. Writing
`a ^^^ b` for the distance of two numbers, the bit length of a distance is an
ultrametric (`Bytes.size_xor_le_max`), a difference of bit lengths decides
which of two points is nearer (`Bytes.lt_of_size_lt`), and two points at the
same bit length from a third are strictly nearer to each other
(`Bytes.size_xor_lt_of_size_eq`), since over two symbols two things that
differ from a third agree.
-/

namespace Bytes

/-- The number a byte string spells, most significant byte first. -/
def value : List UInt8 → ℕ
  | [] => 0
  | b :: bs => b.toNat * 256 ^ bs.length + value bs

theorem value_cons (b : UInt8) (bs : List UInt8) :
    value (b :: bs) = b.toNat * 256 ^ bs.length + value bs := rfl

/-- What holds of the 256 bytes holds of every byte. -/
theorem forall_byte {P : UInt8 → Prop} (h : ∀ n : Fin 256, P (UInt8.ofNat n)) (byte : UInt8) :
    P byte := by
  have hbyte := h ⟨byte.toNat, byte.toNat_lt⟩
  rwa [UInt8.ofNat_toNat] at hbyte

/-- A byte string of width `n` spells a number below `256 ^ n`. -/
theorem value_lt (bs : List UInt8) : value bs < 256 ^ bs.length := by
  induction bs with
  | nil => exact Nat.one_pos
  | cons b bs ih =>
    have hb : b.toNat + 1 ≤ 256 := b.toNat_lt
    calc b.toNat * 256 ^ bs.length + value bs
        < b.toNat * 256 ^ bs.length + 256 ^ bs.length := by omega
      _ = (b.toNat + 1) * 256 ^ bs.length := by ring
      _ ≤ 256 * 256 ^ bs.length := Nat.mul_le_mul_right _ hb
      _ = 256 ^ (b :: bs).length := by rw [List.length_cons, pow_succ]; ring

/-- Comparing two bytes is comparing the numbers they are. -/
theorem compare_byte (x y : UInt8) : compare x y = compare x.toNat y.toNat := by
  rcases lt_trichotomy x.toNat y.toNat with h | h | h
  · rw [compare_lt_iff_lt.mpr h]
    exact compareOfLessAndEq_eq_lt.mpr (UInt8.lt_iff_toNat_lt.mpr h)
  · rw [UInt8.toNat_inj.mp h, compare_eq_iff_eq.mpr rfl]
    simp [compare, compareOfLessAndEq]
  · rw [compare_gt_iff_gt.mpr h]
    have hlt : ¬ x < y := fun hc => absurd (UInt8.lt_iff_toNat_lt.mp hc) (by omega)
    have hne : x ≠ y := fun hc => absurd (congrArg UInt8.toNat hc) (by omega)
    simp [compare, compareOfLessAndEq, hlt, hne]

/-- **The lexicographic order of byte strings is the order of the numbers**,
between strings of one width. Where the first bytes differ they decide, since
all that follows spells less than one unit of the first byte (`value_lt`);
where they agree they contribute the same to both. -/
theorem compareLex_eq_compare_value : ∀ {as bs : List UInt8},
    as.length = bs.length →
      List.compareLex compare as bs = compare (value as) (value bs)
  | [], [], _ => rfl
  | a :: as, b :: bs, h => by
    have hl : as.length = bs.length := Nat.succ.inj h
    have ha := value_lt as
    have hb := value_lt bs
    rw [List.compareLex_cons_cons, compare_byte, compareLex_eq_compare_value hl,
      value_cons, value_cons]
    rw [hl] at ha ⊢
    rcases lt_trichotomy a.toNat b.toNat with hab | hab | hab
    · -- the first byte decides: the tails are below one unit of it
      have hstep : (a.toNat + 1) * 256 ^ bs.length ≤ b.toNat * 256 ^ bs.length :=
        Nat.mul_le_mul_right _ hab
      rw [compare_lt_iff_lt.mpr hab, Ordering.lt_then]
      exact (compare_lt_iff_lt.mpr (by linarith [add_mul a.toNat 1 (256 ^ bs.length)])).symm
    · rw [hab, compare_eq_iff_eq.mpr rfl, Ordering.eq_then]
      rcases lt_trichotomy (value as) (value bs) with hv | hv | hv
      · rw [compare_lt_iff_lt.mpr hv, compare_lt_iff_lt.mpr (by omega)]
      · rw [compare_eq_iff_eq.mpr hv, compare_eq_iff_eq.mpr (by omega)]
      · rw [compare_gt_iff_gt.mpr hv, compare_gt_iff_gt.mpr (by omega)]
    · have hstep : (b.toNat + 1) * 256 ^ bs.length ≤ a.toNat * 256 ^ bs.length :=
        Nat.mul_le_mul_right _ hab
      rw [compare_gt_iff_gt.mpr hab, Ordering.gt_then]
      exact (compare_gt_iff_gt.mpr (by linarith [add_mul b.toNat 1 (256 ^ bs.length)])).symm

/-- Strings of one width that spell one number are equal. -/
theorem eq_of_value_eq : ∀ {as bs : List UInt8}, as.length = bs.length →
    value as = value bs → as = bs
  | [], [], _, _ => rfl
  | a :: as, b :: bs, h, hv => by
    have hl : as.length = bs.length := Nat.succ.inj h
    have ha := value_lt as
    have hb := value_lt bs
    rw [value_cons, value_cons, hl] at hv
    rw [hl] at ha
    have hpos : 0 < 256 ^ bs.length := Nat.pos_of_ne_zero (by simp)
    have hhead : a.toNat = b.toNat := by
      have hdiv := congrArg (· / 256 ^ bs.length) hv
      simpa [Nat.mul_comm _ (256 ^ bs.length), Nat.mul_add_div hpos,
        Nat.div_eq_of_lt ha, Nat.div_eq_of_lt hb] using hdiv
    have htail : value as = value bs := by
      rw [hhead] at hv
      exact Nat.add_left_cancel hv
    rw [UInt8.toNat_inj.mp hhead, eq_of_value_eq hl htail]

/-- The `w` lowest bytes of a number, highest first. -/
def ofNat : ℕ → ℕ → List UInt8
  | 0, _ => []
  | w + 1, n => UInt8.ofNat (n / 256 ^ w) :: ofNat w n

@[simp] theorem length_ofNat (w n : ℕ) : (ofNat w n).length = w := by
  induction w with
  | zero => rfl
  | succ w ih => rw [ofNat, List.length_cons, ih]

/-- Written in `w` bytes and read back, a number is cut to `w` bytes. -/
theorem value_ofNat (w n : ℕ) : value (ofNat w n) = n % 256 ^ w := by
  induction w with
  | zero => rw [pow_zero, Nat.mod_one]; rfl
  | succ w ih =>
    rw [ofNat, value_cons, length_ofNat, ih, UInt8.toNat_ofNat', Nat.mod_pow_succ (b := 256),
      Nat.mul_comm, Nat.add_comm]

/-- A byte string is what its number is written as. -/
theorem ofNat_value {w : ℕ} {bs : List UInt8} (h : bs.length = w) : ofNat w (value bs) = bs := by
  refine eq_of_value_eq ((length_ofNat w _).trans h.symm) ?_
  rw [value_ofNat, Nat.mod_eq_of_lt (h ▸ value_lt bs)]

/-- A number split into a high and a low part is the disjunction of the two. -/
theorem xor_mul_add {k a b u v : ℕ} (hu : u < 2 ^ k) (hv : v < 2 ^ k) :
    (a * 2 ^ k + u) ^^^ (b * 2 ^ k + v) = (a ^^^ b) * 2 ^ k + (u ^^^ v) := by
  have huv : u ^^^ v < 2 ^ k := Nat.xor_lt_two_pow hu hv
  refine Nat.eq_of_testBit_eq (fun i => ?_)
  rw [Nat.testBit_xor, Nat.mul_comm a, Nat.mul_comm b, Nat.mul_comm (a ^^^ b),
    Nat.testBit_two_pow_mul_add _ hu, Nat.testBit_two_pow_mul_add _ hv,
    Nat.testBit_two_pow_mul_add _ huv]
  split <;> simp

/-- **Exclusive or byte by byte is exclusive or of the numbers.** The first
byte and what follows it occupy different bits of the number, and an exclusive
or carries nothing from one bit to another (`xor_mul_add`). -/
theorem value_zipWith_xor : ∀ {as bs : List UInt8}, as.length = bs.length →
    value (List.zipWith (· ^^^ ·) as bs) = value as ^^^ value bs
  | [], [], _ => rfl
  | a :: as, b :: bs, h => by
    have hl : as.length = bs.length := Nat.succ.inj h
    have hpow : (256 : ℕ) ^ bs.length = 2 ^ (8 * bs.length) := by
      rw [pow_mul]; norm_num
    have ha := value_lt as
    have hb := value_lt bs
    rw [List.zipWith_cons_cons, value_cons, value_cons, value_cons,
      List.length_zipWith, hl, Nat.min_self, value_zipWith_xor hl, UInt8.toNat_xor]
    rw [hl] at ha
    rw [hpow] at ha hb ⊢
    exact (xor_mul_add ha hb).symm

/-! ## Exclusive or as a distance

The bit length of a distance says where two numbers first differ. The lemmas of
this section are what can be told from bit lengths alone: an order wherever
they differ, and a cancellation where they agree. No other property of the
distance is used by what is proved about prefixes. -/

/-- The longer of two bit lengths decides the order. -/
theorem lt_of_size_lt {x y : ℕ} (h : x.size < y.size) : x < y :=
  lt_of_lt_of_le (Nat.size_le.mp le_rfl) (Nat.lt_size.mp h)

/-- The bit length of an exclusive or is at most the longer of the two. -/
theorem size_xor_le_max (x y : ℕ) : (x ^^^ y).size ≤ max x.size y.size :=
  Nat.size_le.mpr (Nat.xor_lt_two_pow
    (Nat.size_le.mp (le_max_left _ _)) (Nat.size_le.mp (le_max_right _ _)))

/-- **The distance is an ultrametric**: where the bit lengths differ, the
longer one wins. The top bit of the longer number meets no bit of the shorter
one and stays. -/
theorem size_xor_of_lt {x y : ℕ} (h : x.size < y.size) :
    (x ^^^ y).size = y.size := by
  refine le_antisymm ((size_xor_le_max x y).trans (max_eq_right h.le).le) ?_
  by_contra hlt
  have hy : x ^^^ (x ^^^ y) = y := by rw [← Nat.xor_assoc, Nat.xor_self, Nat.zero_xor]
  have hmax := size_xor_le_max x (x ^^^ y)
  rw [hy] at hmax
  exact absurd hmax (not_le.mpr (max_lt h (not_le.mp hlt)))

/-- The top bit of a number is set. -/
theorem testBit_of_size_eq {x n : ℕ} (h : x.size = n + 1) : x.testBit n = true := by
  have hlo : 2 ^ n ≤ x := Nat.lt_size.mp (by omega)
  have hhi : x < 2 ^ (n + 1) := Nat.size_le.mp h.le
  have hdiv : x / 2 ^ n = 1 :=
    Nat.div_eq_of_lt_le (by omega) (by rw [pow_succ] at hhi; omega)
  rw [Nat.testBit_eq_decide_div_mod_eq, hdiv]
  rfl

/-- **Two numbers of one bit length are nearer to each other than to `0`**:
their top bits cancel. A bit has two values only, so two numbers that first
differ from `0` at one place agree with each other there. -/
theorem size_xor_lt_of_size_eq {x y : ℕ} (h : x.size = y.size) (hx : 0 < x.size) :
    (x ^^^ y).size < x.size := by
  obtain ⟨n, hn⟩ : ∃ n, x.size = n + 1 := ⟨x.size - 1, by omega⟩
  have hn' : y.size = n + 1 := h ▸ hn
  rw [hn]
  refine Nat.lt_succ_of_le (Nat.size_le.mpr (Nat.lt_pow_two_of_testBit _ (fun i hi => ?_)))
  rw [Nat.testBit_xor]
  rcases Nat.lt_or_ge n i with hlt | hge
  · have hpow : 2 ^ (n + 1) ≤ 2 ^ i := Nat.pow_le_pow_right (by decide) hlt
    rw [Nat.testBit_lt_two_pow ((Nat.size_le.mp hn.le).trans_le hpow),
      Nat.testBit_lt_two_pow ((Nat.size_le.mp hn'.le).trans_le hpow)]
    rfl
  · rw [Nat.le_antisymm hge hi, testBit_of_size_eq hn, testBit_of_size_eq hn']
    rfl

/-- The distance between two points, by way of a third. -/
theorem xor_eq_via (x y z : ℕ) : x ^^^ y = (x ^^^ z) ^^^ (y ^^^ z) := by
  rw [Nat.xor_comm y z, Nat.xor_assoc, ← Nat.xor_assoc z, Nat.xor_self, Nat.zero_xor]

end Bytes
