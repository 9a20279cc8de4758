import Mathlib
import QuadAlgebra.Semantics.Expression

/-!
# Whole numbers in doubles

A double holds the whole numbers whose first and last significant bits are at most 53 places apart
(`Double.Fits`). Every other whole number has a nearest one among them, which is the even one of two
equally near (`Double.nearest`, `Double.nearest_spec`).

The bits of a double are a sign, an exponent and a fraction, and all operations work on its unpacked
form. A double stands for a whole number if its unpacked form does (`Double.Carries`), and sum,
difference and product of two such doubles stand for the nearest number to the exact result
(`Double.IsWhole.add`, `Double.IsWhole.sub`, `Double.IsWhole.mul`). What matters of a rounded
mantissa is the quotient by a power of two and how the remainder compares with one half of it
(`Double.Shifted`).
-/

namespace QuadAlgebra

open Float.Model (UnpackedFloat)
open Float.Model.Format (binary64)
open Float.Model.UnpackedFloat (Sign ExtendedMantissa)

namespace Double

attribute [local instance] lexOrd

/-! ## The nearest double -/

/-- The number has at most 53 significant bits. -/
def Fits (z : Int) : Prop := ∃ m k : Nat, m < 2 ^ 53 ∧ z.natAbs = m * 2 ^ k

/-- Drops the last bits of a number and rounds to the nearest; of two equally near numbers it takes
the even one. -/
def roundShift (m k : Nat) : Nat :=
  let q := m / 2 ^ k
  let r := m % 2 ^ k
  if 2 * r < 2 ^ k then q else if 2 * r = 2 ^ k then q + q % 2 else q + 1

/-- The first 53 bits of a natural number, rounded. -/
def nearestNat (n : Nat) : Nat := roundShift n (n.log2 - 52) * 2 ^ (n.log2 - 52)

/-- The double that is nearest to a whole number. -/
def nearest (z : Int) : Int := z.sign * nearestNat z.natAbs

/-- The result of an operation on doubles, for operands that are made doubles first. -/
def rounded (f : Int → Int → Int) (a b : Int) : Int := nearest (f (nearest a) (nearest b))

/-- Where no bits are dropped nothing is rounded. -/
theorem roundShift_zero (m : Nat) : roundShift m 0 = m := by
  simp [roundShift, Nat.mod_one]

/-- Bits that both numbers end on do not count. -/
theorem roundShift_mul (m k j : Nat) : roundShift (m * 2 ^ j) (k + j) = roundShift m k := by
  have hj : 0 < 2 ^ j := Nat.two_pow_pos j
  have hq : m * 2 ^ j / 2 ^ (k + j) = m / 2 ^ k := by
    rw [Nat.pow_add, Nat.mul_div_mul_right _ _ hj]
  have hr : m * 2 ^ j % 2 ^ (k + j) = m % 2 ^ k * 2 ^ j := by
    rw [Nat.pow_add, Nat.mul_mod_mul_right]
  have hlt : 2 * (m % 2 ^ k * 2 ^ j) < 2 ^ k * 2 ^ j ↔ 2 * (m % 2 ^ k) < 2 ^ k := by
    rw [← Nat.mul_assoc, Nat.mul_lt_mul_right hj]
  have heq : 2 * (m % 2 ^ k * 2 ^ j) = 2 ^ k * 2 ^ j ↔ 2 * (m % 2 ^ k) = 2 ^ k := by
    rw [← Nat.mul_assoc, Nat.mul_left_inj hj.ne']
  unfold roundShift
  dsimp only
  rw [hq, hr, Nat.pow_add, if_congr hlt rfl (if_congr heq rfl rfl)]

/-- Without a remainder nothing is rounded. -/
theorem roundShift_mul_self (m k : Nat) : roundShift (m * 2 ^ k) k = m := by
  have h := roundShift_mul m 0 k
  rwa [Nat.zero_add, roundShift_zero] at h

/-- What is rounded is the quotient or the number above it. -/
theorem roundShift_bounds (m k : Nat) :
    m / 2 ^ k ≤ roundShift m k ∧ roundShift m k ≤ m / 2 ^ k + 1 := by
  unfold roundShift
  dsimp only
  split
  · omega
  · split <;> omega

/-- No multiple of the last bit that stays is nearer. -/
theorem roundShift_nearest (m k t : Nat) : ((roundShift m k * 2 ^ k : Nat) - (m : Int)).natAbs ≤
    ((t * 2 ^ k : Nat) - (m : Int)).natAbs := by
  have hm := Nat.div_add_mod m (2 ^ k)
  have hr : m % 2 ^ k < 2 ^ k := Nat.mod_lt _ (Nat.two_pow_pos k)
  have hround : roundShift m k * 2 ^ k = 2 ^ k * (m / 2 ^ k) ∧ 2 * (m % 2 ^ k) ≤ 2 ^ k ∨
      roundShift m k * 2 ^ k = 2 ^ k * (m / 2 ^ k) + 2 ^ k ∧ 2 ^ k ≤ 2 * (m % 2 ^ k) := by
    unfold roundShift
    dsimp only
    have hbit := Nat.mod_two_eq_zero_or_one (m / 2 ^ k)
    rw [Nat.mul_comm (2 ^ k) (m / 2 ^ k)]
    split
    · exact .inl ⟨rfl, by omega⟩
    · split
      · rcases hbit with hbit | hbit <;> rw [hbit]
        · exact .inl ⟨rfl, by omega⟩
        · exact .inr ⟨Nat.succ_mul _ _, by omega⟩
      · exact .inr ⟨Nat.succ_mul _ _, by omega⟩
  rcases Nat.lt_or_ge (m / 2 ^ k) t with ht | ht
  · have : 2 ^ k * (m / 2 ^ k) + 2 ^ k ≤ t * 2 ^ k := by
      rw [Nat.mul_comm t, ← Nat.mul_succ]
      exact Nat.mul_le_mul_left _ ht
    omega
  · have : t * 2 ^ k ≤ 2 ^ k * (m / 2 ^ k) := by
      rw [Nat.mul_comm t]
      exact Nat.mul_le_mul_left _ ht
    omega

/-- A power of two shifts the highest bit. -/
theorem log2_mul_two_pow {m : Nat} (hm : 0 < m) (j : Nat) : (m * 2 ^ j).log2 = m.log2 + j := by
  induction j with
  | zero => rw [Nat.pow_zero, Nat.mul_one, Nat.add_zero]
  | succ j ih =>
    have hne : m * 2 ^ j ≠ 0 := (Nat.mul_pos hm (Nat.two_pow_pos j)).ne'
    rw [Nat.pow_succ, ← Nat.mul_assoc, Nat.mul_comm, Nat.log2_two_mul hne, ih, Nat.add_assoc]

/-- Two ways of writing a number agree on whether it is zero. -/
theorem pos_of_mul_eq {m n i j : Nat} (hm : 0 < m) (h : m * 2 ^ j = n * 2 ^ i) : 0 < n :=
  Nat.pos_of_mul_pos_right (h ▸ Nat.mul_pos hm (Nat.two_pow_pos j))

/-- Two ways of writing a number agree on its highest bit. -/
theorem log2_add_eq {m n i j : Nat} (hm : 0 < m) (h : m * 2 ^ j = n * 2 ^ i) :
    m.log2 + j = n.log2 + i := by
  rw [← log2_mul_two_pow hm, h, log2_mul_two_pow (pos_of_mul_eq hm h)]

theorem pos_of_log2 {m : Nat} (hm : 52 ≤ m.log2) : 0 < m :=
  Nat.pos_of_ne_zero fun h => by
    rw [h] at hm
    exact absurd hm (by decide)

/-- A number and its multiples by powers of two have the same first bits. -/
theorem roundShift_eq_nearestNat {m n i j : Nat} (hm : 52 ≤ m.log2)
    (hvalue : m * 2 ^ j = n * 2 ^ i) :
    roundShift m (m.log2 - 52) * 2 ^ n.log2 = nearestNat n * 2 ^ 52 := by
  have hlog := log2_add_eq (pos_of_log2 hm) hvalue
  rw [← roundShift_mul m (m.log2 - 52) j, hvalue, nearestNat]
  rcases Nat.le_total 52 n.log2 with hle | hle
  · rw [show m.log2 - 52 + j = n.log2 - 52 + i by omega, roundShift_mul, Nat.mul_assoc,
      ← Nat.pow_add, Nat.sub_add_cancel hle]
  · have hshift : n * 2 ^ i = n * 2 ^ (52 - n.log2) * 2 ^ (m.log2 - 52 + j) := by
      rw [Nat.mul_assoc, ← Nat.pow_add]
      congr 2
      omega
    rw [hshift, roundShift_mul_self, Nat.sub_eq_zero_of_le hle, roundShift_zero, Nat.pow_zero,
      Nat.mul_one, Nat.mul_assoc, ← Nat.pow_add, Nat.sub_add_cancel hle]

/-- What has at most 53 significant bits is its own nearest double. -/
theorem nearestNat_mul {m : Nat} (hm : m < 2 ^ 53) (k : Nat) :
    nearestNat (m * 2 ^ k) = m * 2 ^ k := by
  rcases Nat.eq_zero_or_pos m with rfl | hpos
  · rw [Nat.zero_mul]
    rfl
  have hlog : m.log2 < 53 := (Nat.log2_lt hpos.ne').2 hm
  rw [nearestNat, log2_mul_two_pow hpos]
  have hsplit : m * 2 ^ k = m * 2 ^ (k - (m.log2 + k - 52)) * 2 ^ (m.log2 + k - 52) := by
    rw [Nat.mul_assoc, ← Nat.pow_add, Nat.sub_add_cancel (by omega)]
  have hshift := roundShift_mul_self (m * 2 ^ (k - (m.log2 + k - 52))) (m.log2 + k - 52)
  rw [← hsplit] at hshift
  rw [hshift, ← hsplit]

/-- The first bits, rounded, are at most the next power of two. -/
theorem roundShift_le (n : Nat) :
    roundShift n (n.log2 - 52) ≤ 2 ^ (n.log2 + 1 - (n.log2 - 52)) := by
  refine (roundShift_bounds _ _).2.trans ?_
  rw [Nat.succ_le_iff, Nat.div_lt_iff_lt_mul (Nat.two_pow_pos _), ← Nat.pow_add,
    Nat.sub_add_cancel (by omega)]
  exact Nat.lt_log2_self

/-- A mantissa of full length still has full length after rounding. -/
theorem le_roundShift {m : Nat} (hm : 52 ≤ m.log2) : 2 ^ 52 ≤ roundShift m (m.log2 - 52) := by
  refine le_trans ?_ (roundShift_bounds _ _).1
  rw [Nat.le_div_iff_mul_le (Nat.two_pow_pos _), ← Nat.pow_add, Nat.add_sub_cancel' hm]
  exact Nat.log2_self_le (pos_of_log2 hm).ne'

/-- A power of two is a double itself, so no number below it is rounded beyond it. -/
theorem nearestNat_le_two_pow {n k : Nat} (h : n ≤ 2 ^ k) : nearestNat n ≤ 2 ^ k := by
  rcases Nat.lt_or_eq_of_le h with hlt | rfl
  · rcases Nat.eq_zero_or_pos n with rfl | hn
    · exact h
    calc nearestNat n ≤ 2 ^ (n.log2 + 1 - (n.log2 - 52)) * 2 ^ (n.log2 - 52) :=
          Nat.mul_le_mul_right _ (roundShift_le n)
      _ = 2 ^ (n.log2 + 1) := by rw [← Nat.pow_add, Nat.sub_add_cancel (by omega)]
      _ ≤ 2 ^ k := Nat.pow_le_pow_right (by decide) ((Nat.log2_lt hn.ne').2 hlt)
  · have hself := nearestNat_mul (m := 1) (by decide) k
    rw [Nat.one_mul] at hself
    exact hself.le

/-- What has been rounded is a mantissa of at most 53 bits, shifted. -/
theorem exists_nearestNat_eq (n : Nat) : ∃ m k, m < 2 ^ 53 ∧ nearestNat n = m * 2 ^ k := by
  have hle : roundShift n (n.log2 - 52) ≤ 2 ^ 53 :=
    (roundShift_le n).trans (Nat.pow_le_pow_right (by decide) (by omega))
  rcases Nat.lt_or_eq_of_le hle with hlt | heq
  · exact ⟨_, _, hlt, rfl⟩
  · refine ⟨2 ^ 52, n.log2 - 52 + 1, by decide, ?_⟩
    rw [nearestNat, heq, Nat.pow_succ' (n := n.log2 - 52), ← Nat.mul_assoc,
      show (2 : Nat) ^ 52 * 2 = 2 ^ 53 from by decide]

/-- No number with as many bits is nearer. -/
theorem nearestNat_nearest (n : Nat) {m : Nat} (hm : m < 2 ^ 53) (k : Nat) :
    ((nearestNat n : Int) - n).natAbs ≤ ((m * 2 ^ k : Nat) - (n : Int)).natAbs := by
  rcases Nat.eq_zero_or_pos n with rfl | hn
  · exact Nat.zero_le _
  have hself := Nat.log2_self_le hn.ne'
  rcases Nat.lt_or_ge (m * 2 ^ k) (2 ^ n.log2) with hlt | hge
  · -- the power of two below the number is nearer than what is below that power
    rcases Nat.le_total n.log2 52 with hle | hle
    · rw [nearestNat, Nat.sub_eq_zero_of_le hle, roundShift_zero, Nat.pow_zero, Nat.mul_one,
        Int.sub_self]
      exact Nat.zero_le _
    · refine (roundShift_nearest n (n.log2 - 52) (2 ^ 52)).trans ?_
      rw [← Nat.pow_add, Nat.add_sub_cancel' hle]
      omega
  · have hk : n.log2 < 53 + k := by
      refine (Nat.pow_lt_pow_iff_right (by decide : 1 < 2)).1 (hge.trans_lt ?_)
      rw [Nat.pow_add]
      exact Nat.mul_lt_mul_of_pos_right hm (Nat.two_pow_pos k)
    have hsplit : m * 2 ^ k = m * 2 ^ (k - (n.log2 - 52)) * 2 ^ (n.log2 - 52) := by
      rw [Nat.mul_assoc, ← Nat.pow_add, Nat.sub_add_cancel (by omega)]
    rw [hsplit]
    exact roundShift_nearest n (n.log2 - 52) _

/-- An integer is rounded by its size, whatever its sign. -/
theorem natAbs_nearest (z : Int) : (nearest z).natAbs = nearestNat z.natAbs := by
  rcases Int.lt_trichotomy z 0 with h | rfl | h
  · rw [nearest, Int.sign_eq_neg_one_of_neg h, Int.natAbs_mul, Int.natAbs_natCast]
    exact Nat.one_mul _
  · rfl
  · rw [nearest, Int.sign_eq_one_of_pos h, Int.one_mul, Int.natAbs_natCast]

theorem natAbs_nearest_le {z : Int} {k : Nat} (h : z.natAbs ≤ 2 ^ k) :
    (nearest z).natAbs ≤ 2 ^ k := by
  rw [natAbs_nearest]
  exact nearestNat_le_two_pow h

/-- The nearest double is a double. -/
theorem fits_nearest (z : Int) : Fits (nearest z) := by
  rw [Fits, natAbs_nearest]
  exact exists_nearestNat_eq z.natAbs

/-- Just the doubles among the integers are rounded to themselves. -/
theorem nearest_eq_self_iff {z : Int} : nearest z = z ↔ Fits z := by
  constructor
  · exact fun h => h ▸ fits_nearest z
  · rintro ⟨m, k, hm, hz⟩
    rw [nearest, hz, nearestNat_mul hm, ← hz, Int.sign_mul_natAbs]

/-- No double is nearer to a whole number than the nearest one. -/
theorem nearest_spec (z : Int) {d : Int} (h : Fits d) :
    (nearest z - z).natAbs ≤ (d - z).natAbs := by
  obtain ⟨m, k, hm, hd⟩ := h
  have hsame := nearestNat_nearest z.natAbs hm k
  have hzero := nearestNat_nearest z.natAbs (m := 0) (by decide) 0
  rw [← hd] at hsame
  rw [nearest]
  rcases Int.lt_trichotomy z 0 with h | rfl | h
  · rw [Int.sign_eq_neg_one_of_neg h]
    omega
  · exact Nat.zero_le _
  · rw [Int.sign_eq_one_of_pos h]
    omega

/-! ## Bits -/

section Bits

variable (b : BitVec 64)

/-- The mantissa is stored in the lowest 52 bits. -/
theorem toNat_unpackMantissa :
    (@UnpackedFloat.unpackMantissa binary64 b).toNat = b.toNat % 2 ^ 52 := by
  simp [UnpackedFloat.unpackMantissa, BitVec.extractLsb_toNat]

/-- The exponent is stored in the eleven bits above the mantissa. -/
theorem toNat_unpackExponent :
    (@UnpackedFloat.unpackExponent binary64 b).toNat = b.toNat / 2 ^ 52 % 2048 := by
  simp [UnpackedFloat.unpackExponent, BitVec.extractLsb_toNat, Nat.shiftRight_eq_div_pow]

theorem unpackMantissa_eq_iff (v : BitVec 52) :
    @UnpackedFloat.unpackMantissa binary64 b = v ↔ b.toNat % 2 ^ 52 = v.toNat := by
  rw [← BitVec.toNat_inj, toNat_unpackMantissa]

theorem unpackExponent_eq_iff (v : BitVec 11) :
    @UnpackedFloat.unpackExponent binary64 b = v ↔ b.toNat / 2 ^ 52 % 2048 = v.toNat := by
  rw [← BitVec.toNat_inj, toNat_unpackExponent]

/-- The sign is stored in the highest bit. -/
theorem ofBitVec_unpackSign : Sign.ofBitVec (@UnpackedFloat.unpackSign binary64 b) =
    if b.toNat / 2 ^ 63 = 1 then .negative else .positive := by
  have hlt := b.isLt
  have hsign : (@UnpackedFloat.unpackSign binary64 b).toNat = b.toNat / 2 ^ 63 := by
    simp [UnpackedFloat.unpackSign, BitVec.extractLsb_toNat, Nat.shiftRight_eq_div_pow]
    omega
  have hzero : @UnpackedFloat.unpackSign binary64 b = 0#1 ↔ b.toNat / 2 ^ 63 = 0 := by
    rw [← BitVec.toNat_inj, hsign, BitVec.toNat_zero]
  rw [Sign.ofBitVec, if_congr hzero rfl rfl]
  split <;> split <;> first | rfl | omega

/-- A normal number has one more bit in front of its fraction. -/
theorem toNat_implicit_append (m : BitVec 52) : (1#1 ++ m).toNat = 2 ^ 52 + m.toNat := by
  rw [BitVec.toNat_append, ← Nat.shiftLeft_add_eq_or_of_lt m.isLt, Nat.shiftLeft_eq]
  rfl

end Bits

/-- The bits of a double say what its unpacked form says. -/
def exactValue : UnpackedFloat → Binary
  | .notANumber => .nan
  | .infinity s => .infinite (s == .negative)
  | .zero s => .finite (s == .negative) 0 (-1074)
  | .finite s m e _ => .finite (s == .negative) m e

/-- The value of a float is read from its unpacked form. -/
theorem ofFloat_eq (x : Float) : Binary.ofFloat x = exactValue x.toModel.unpack := by
  obtain ⟨b, hbits, hunpack⟩ : ∃ b : BitVec 64, x.toBits.toNat = b.toNat ∧
      x.toModel.unpack = UnpackedFloat.unpack binary64 b := ⟨_, rfl, rfl⟩
  have hnegative : (b.toNat / 2 ^ 63 == 1) =
      (Sign.ofBitVec (@UnpackedFloat.unpackSign binary64 b) == .negative) := by
    rw [ofBitVec_unpackSign]
    split
    · next h => rw [h]; rfl
    · next h => rw [beq_false_of_ne h]; rfl
  have hones := unpackExponent_eq_iff b (-1#11)
  have hzero := unpackExponent_eq_iff b 0#11
  have hfraction := unpackMantissa_eq_iff b 0#52
  rw [hunpack, Binary.ofFloat, hbits]
  simp only [Nat.pow_eq]
  rw [hnegative]
  unfold UnpackedFloat.unpack
  dsimp only
  by_cases h1 : b.toNat / 2 ^ 52 % 2048 = 2047
  · rw [if_pos h1, if_pos (hones.2 h1)]
    by_cases h2 : b.toNat % 2 ^ 52 = 0
    · rw [if_pos h2, if_pos (hfraction.2 h2)]
      rfl
    · rw [if_neg h2, if_neg (mt hfraction.1 h2)]
      rfl
  rw [if_neg h1, if_neg (mt hones.1 h1)]
  by_cases h3 : b.toNat / 2 ^ 52 % 2048 = 0
  · rw [if_pos h3, if_pos (hzero.2 h3)]
    by_cases h2 : b.toNat % 2 ^ 52 = 0
    · rw [h2, dif_pos (hfraction.2 h2)]
      rfl
    · rw [dif_neg (mt hfraction.1 h2)]
      simp only [exactValue, toNat_unpackMantissa, toNat_unpackExponent, h3]
      rfl
  rw [if_neg h3, if_neg (mt hzero.1 h3)]
  simp only [exactValue, toNat_implicit_append, toNat_unpackMantissa, toNat_unpackExponent]
  rfl

/-- Both zeros keep their sign when they are packed. -/
theorem unpack_pack_zero (s : Sign) : (Float.Model.pack (.zero s)).unpack = .zero s := by
  cases s <;> rfl

/-- A mantissa of 53 bits survives in a double, unless the exponent is out of range. -/
theorem unpack_pack_finite (s : Sign) {m : Nat} {e : Int} (hm : 0 < m) (hlog : m.log2 = 52)
    (hlo : -1074 ≤ e) (hhi : e ≤ 971) :
    (Float.Model.pack (.finite s m e hm)).unpack = .finite s m e hm := by
  obtain ⟨field, hfield⟩ : ∃ field : Nat, (field : Int) = e + 1075 :=
    ⟨(e + 1075).toNat, Int.toNat_of_nonneg (by omega)⟩
  have hlow : 2 ^ 52 ≤ m := (Nat.le_log2 hm.ne').1 hlog.ge
  have hhigh : m < 2 ^ 53 := (Nat.log2_lt hm.ne').1 (by omega)
  have hpack : UnpackedFloat.pack binary64 (.finite s m e hm) =
      UnpackedFloat.packComponents binary64 s (BitVec.ofNat 11 field) (BitVec.ofNat 52 m) := by
    have hbias : (e + (binary64.exponentBias : Nat) + (52 : Nat)).toNat = field := by
      change (e + (1023 : Nat) + (52 : Nat)).toNat = field
      omega
    unfold UnpackedFloat.pack
    dsimp only
    rw [hbias, if_neg (by change ¬ 2048 ≤ _; omega), if_pos (by rw [hlog]; rfl)]
  have hexponent : (BitVec.ofNat 11 field).toNat = field := by
    rw [BitVec.toNat_ofNat, Nat.mod_eq_of_lt (by omega)]
  have hmantissa : (1#1 ++ BitVec.ofNat 52 m).toNat = m := by
    rw [toNat_implicit_append, BitVec.toNat_ofNat]
    omega
  change UnpackedFloat.unpack binary64 (UnpackedFloat.pack binary64 (.finite s m e hm)) = _
  rw [hpack]
  unfold UnpackedFloat.unpack
  simp only [UnpackedFloat.unpackMantissa_packComponents,
    UnpackedFloat.unpackExponent_packComponents, UnpackedFloat.unpackSign_packComponents,
    Sign.ofBitVec_toBitVec]
  have hne (v : BitVec 11) (h : field ≠ v.toNat) : BitVec.ofNat 11 field ≠ v :=
    fun heq => h (hexponent ▸ congrArg BitVec.toNat heq)
  rw [if_neg (hne _ (by change field ≠ 2047; omega)), if_neg (hne _ (by change field ≠ 0; omega))]
  simp only [hexponent, hmantissa]
  congr 1
  change (field : Int) - ((1023 : Nat) + (52 : Nat)) = e
  omega

/-! ## Rounding of mantissas -/

/-- The bits that were shifted out: the mantissa is the quotient, and the round and the sticky bit
compare the remainder with one half. -/
structure Shifted (em : ExtendedMantissa) (m k : Nat) : Prop where
  mantissa : em.mantissa = m / 2 ^ k
  roundBit : em.roundBit = true ↔ 2 ^ k ≤ 2 * (m % 2 ^ k)
  stickyBit : em.stickyBit = true ↔ 2 * (m % 2 ^ k) ≠ 0 ∧ 2 * (m % 2 ^ k) ≠ 2 ^ k

/-- A mantissa of which nothing has been dropped. -/
theorem Shifted.start (m : Nat) : Shifted ⟨m, false, false⟩ m 0 where
  mantissa := by simp
  roundBit := by simp [Nat.mod_one]
  stickyBit := by simp [Nat.mod_one]

/-- The highest of the dropped bits is told apart from those that have been dropped before it. -/
theorem Shifted.step {em : ExtendedMantissa} {m k : Nat} (h : Shifted em m k) :
    Shifted em.shiftRightOne m (k + 1) := by
  have hmod : m % 2 ^ (k + 1) = m % 2 ^ k + 2 ^ k * (m / 2 ^ k % 2) := by
    rw [Nat.pow_succ, Nat.mod_mul]
  have hr : m % 2 ^ k < 2 ^ k := Nat.mod_lt _ (Nat.two_pow_pos k)
  have hbit : m / 2 ^ k % 2 = 0 ∨ m / 2 ^ k % 2 = 1 := Nat.mod_two_eq_zero_or_one _
  constructor
  · rw [ExtendedMantissa.shiftRightOne, h.mantissa, Nat.div_div_eq_div_mul, Nat.pow_succ]
  · rw [ExtendedMantissa.shiftRightOne, h.mantissa, hmod, Nat.pow_succ]
    rcases hbit with hbit | hbit <;> simp [hbit] <;> omega
  · rw [ExtendedMantissa.shiftRightOne, Bool.or_eq_true, h.roundBit, h.stickyBit, hmod,
      Nat.pow_succ]
    rcases hbit with hbit | hbit <;> rw [hbit] <;> omega

/-- Shifts are made one bit at a time. -/
theorem Shifted.shiftRight (m k : Nat) :
    Shifted ((ExtendedMantissa.ofMantissaAndAccuracy m .exact) >>> k) m k := by
  change Shifted (k.repeat ExtendedMantissa.shiftRightOne ⟨m, false, false⟩) m k
  induction k with
  | zero => exact .start m
  | succ k ih => exact ih.step

/-- What a shifted mantissa is rounded to depends on the bits that it has dropped. -/
theorem Shifted.roundedMantissa {em : ExtendedMantissa} {m k : Nat} (h : Shifted em m k) :
    em.roundedMantissa = roundShift m k := by
  obtain ⟨q, r, s⟩ := em
  obtain ⟨rfl, hr, hs⟩ := h
  unfold ExtendedMantissa.roundedMantissa roundShift
  cases r <;> cases s <;>
    simp only [ExtendedMantissa.accuracy, UnpackedFloat.Accuracy.roundToNearestEven] <;>
    simp at hr hs <;> grind

/-! ## Whole numbers in doubles -/

/-- The unpacked double is the whole number, with a mantissa of 53 bits unless it is zero. -/
def Carries : UnpackedFloat → Int → Prop
  | .zero _, z => z = 0
  | .finite s m e _, z =>
    m.log2 = 52 ∧ ∃ n k : Nat, z = s.apply n ∧ e = k - 52 ∧ m * 2 ^ k = n * 2 ^ 52
  | _, _ => False

/-- A mantissa that is longer than 53 bits is shifted until it fits, unless the exponent is too
small. -/
theorem shiftToTargetExponent_eq {m : Nat} {e : Int} (hm : 52 ≤ m.log2) (he : -1074 ≤ e) :
    UnpackedFloat.shiftToTargetExponent binary64 m e .exact =
      (ExtendedMantissa.ofMantissaAndAccuracy m .exact >>> (m.log2 - 52),
        e + (m.log2 - 52 : Nat)) := by
  have htarget : binary64.targetExponent (Float.Model.totalExponent m e) =
      e + (m.log2 - 52 : Nat) := by
    change max ((m.log2 : Int) + 1 + e - (53 : Nat)) (-1074) = _
    omega
  have hamount : (e + ((m.log2 - 52 : Nat) : Int) - e).toNat = m.log2 - 52 := by omega
  unfold UnpackedFloat.shiftToTargetExponent UnpackedFloat.shiftToExponent
  dsimp only
  rw [htarget, hamount]

/-- Rounding up may have made one more bit, and then all others are zero. -/
theorem drop_carry {q : Nat} (hlow : 2 ^ 52 ≤ q) (hhigh : q ≤ 2 ^ 53) :
    (q / 2 ^ (q.log2 - 52)).log2 = 52 ∧ q / 2 ^ (q.log2 - 52) * 2 ^ (q.log2 - 52) = q := by
  rcases Nat.lt_or_eq_of_le hhigh with hlt | rfl
  · have hlog : q.log2 = 52 := (Nat.log2_eq_iff (by omega)).2 ⟨hlow, hlt⟩
    rw [hlog, Nat.sub_self, Nat.pow_zero, Nat.div_one, Nat.mul_one]
    exact ⟨hlog, rfl⟩
  · rw [Nat.log2_two_pow]
    decide

/-- A mantissa with 53 bits or more is rounded to a double. -/
theorem carries_roundWithAccuracy (s : Sign) {m n i j : Nat} (hm : 52 ≤ m.log2)
    (hvalue : m * 2 ^ j = n * 2 ^ i) (hi : i ≤ 1074) :
    Carries (UnpackedFloat.roundWithAccuracy binary64 s m (j - i) .exact)
      (s.apply (nearestNat n)) := by
  have hlog := log2_add_eq (pos_of_log2 hm) hvalue
  have hrounded := roundShift_eq_nearestNat hm hvalue
  have hlow := le_roundShift hm
  have hhigh := roundShift_le m
  rw [show m.log2 + 1 - (m.log2 - 52) = 53 by omega] at hhigh
  obtain ⟨q, hq⟩ : ∃ q, roundShift m (m.log2 - 52) = q := ⟨_, rfl⟩
  rw [hq] at hrounded hlow hhigh
  have hqlog : 52 ≤ q.log2 := (Nat.le_log2 (by omega)).2 hlow
  have hround : UnpackedFloat.roundWithAccuracy binary64 s m (j - i) .exact =
      if h : q / 2 ^ (q.log2 - 52) = 0 then .zero s
      else .finite s (q / 2 ^ (q.log2 - 52)) (j - i + (m.log2 - 52 : Nat) + (q.log2 - 52 : Nat))
        (Nat.pos_of_ne_zero h) := by
    unfold UnpackedFloat.roundWithAccuracy
    simp only [shiftToTargetExponent_eq hm (e := j - i) (by omega),
      (Shifted.shiftRight m _).roundedMantissa, hq,
      shiftToTargetExponent_eq hqlog (e := j - i + (m.log2 - 52 : Nat)) (by omega),
      (Shifted.shiftRight q _).mantissa]
  obtain ⟨hfinal, hcarry⟩ := drop_carry hlow hhigh
  rw [hround, dif_neg (pos_of_log2 hfinal.ge).ne']
  refine ⟨hfinal, nearestNat n, n.log2 + (q.log2 - 52), rfl, by omega, ?_⟩
  rw [Nat.add_comm, Nat.pow_add, ← Nat.mul_assoc, hcarry, hrounded]

/-- To round an exact number is to take the nearest double of it. -/
theorem carries_round (s : Sign) {m n i j : Nat} (hm : 0 < m) (hvalue : m * 2 ^ j = n * 2 ^ i)
    (hi : i ≤ 1000) :
    Carries (UnpackedFloat.round binary64 s m (j - i)) (s.apply (nearestNat n)) := by
  have hlog := log2_add_eq hm hvalue
  have htarget : binary64.targetExponent (Float.Model.totalExponent m (j - i)) =
      j - i + m.log2 - 52 := by
    change max ((m.log2 : Int) + 1 + (j - i) - (53 : Nat)) (-1074) = _
    omega
  have hamount : ((j : Int) - i - (j - i + m.log2 - 52)).toNat = 52 - m.log2 := by omega
  have hexponent : (j : Int) - i - (52 - m.log2 : Nat) = j - (i + (52 - m.log2) : Nat) := by omega
  have hlarge : 52 ≤ (m * 2 ^ (52 - m.log2)).log2 := by
    rw [log2_mul_two_pow hm]
    omega
  unfold UnpackedFloat.round UnpackedFloat.decreaseExponent
  dsimp only
  rw [htarget, hamount, Nat.shiftLeft_eq, hexponent]
  refine carries_roundWithAccuracy s hlarge ?_ (by omega)
  rw [Nat.mul_right_comm, hvalue, Nat.mul_assoc, ← Nat.pow_add]

/-- The nearest double keeps the sign. -/
theorem nearest_apply (s : Sign) (n : Nat) : nearest (s.apply n) = s.apply (nearestNat n) := by
  have hcast : nearest (n : Int) = nearestNat n := by
    rcases Nat.eq_zero_or_pos n with rfl | hn
    · rfl
    · rw [nearest, Int.sign_eq_one_of_pos (by omega), Int.one_mul, Int.natAbs_natCast]
  cases s
  · change nearest (-n) = -(nearestNat n : Int)
    rw [← hcast, nearest, nearest, Int.sign_neg, Int.natAbs_neg, Int.neg_mul]
  · exact hcast

theorem apply_apply (s : Sign) (z : Int) : s.apply (s.apply z) = z := by
  cases s
  · exact Int.neg_neg z
  · rfl

theorem apply_mul (s : Sign) (a b : Int) : s.apply (a * b) = s.apply a * b := by
  cases s
  · exact Int.neg_mul_eq_neg_mul a b
  · rfl

/-- What has the value of a signed mantissa is signed in the same way. -/
theorem exists_magnitude {s : Sign} {m i j : Nat} {z : Int} (h : s.apply m * 2 ^ j = z * 2 ^ i) :
    ∃ n : Nat, z = s.apply n ∧ m * 2 ^ j = n * 2 ^ i := by
  have hsize : (m : Int) * 2 ^ j = s.apply z * 2 ^ i := by
    rw [← apply_mul, ← h, apply_mul, apply_apply]
  have hnonneg : 0 ≤ s.apply z * 2 ^ i := hsize ▸ by exact_mod_cast Nat.zero_le _
  obtain ⟨n, hn⟩ := Int.eq_ofNat_of_zero_le
    (Int.nonneg_of_mul_nonneg_left hnonneg (Int.pow_pos (by decide)))
  refine ⟨n, by rw [← hn, apply_apply], ?_⟩
  rw [hn] at hsize
  exact_mod_cast hsize

/-- A number that is normalized is rounded to the nearest double. -/
theorem carries_normalize {z mantissa : Int} {i j : Nat} (hvalue : mantissa * 2 ^ j = z * 2 ^ i)
    (hi : i ≤ 1000) :
    Carries (UnpackedFloat.normalize binary64 mantissa (j - i) .positive) (nearest z) := by
  have hsigned (s : Sign) (m : Nat) (hm : 0 < m) (hs : s.apply m = mantissa) :
      Carries (UnpackedFloat.round binary64 s m (j - i)) (nearest z) := by
    obtain ⟨n, rfl, hn⟩ := exists_magnitude (hs ▸ hvalue)
    rw [nearest_apply]
    exact carries_round s hm hn hi
  unfold UnpackedFloat.normalize
  split
  · next h =>
    rw [Int.compare_eq_lt] at h
    refine hsigned .negative _ (by omega) ?_
    rw [Sign.apply, Int.toNat_of_nonneg (by omega), Int.neg_neg]
  · next h =>
    rw [Int.compare_eq_eq] at h
    rw [h, Int.zero_mul, eq_comm, Int.mul_eq_zero] at hvalue
    rw [hvalue.resolve_right (Int.pow_pos (by decide)).ne']
    rfl
  · next h =>
    rw [Int.compare_eq_gt] at h
    exact hsigned .positive _ (by omega) (Int.toNat_of_nonneg (by omega))

/-! ## Arithmetic -/

section Arithmetic

variable {u v : UnpackedFloat} {a b : Int}

/-- A double that carries a whole number is zero or has a mantissa of 53 bits. -/
theorem Carries.zero_or_finite (h : Carries u a) : (∃ s, u = .zero s ∧ a = 0) ∨
    ∃ (s : Sign) (m n k : Nat) (hm : 0 < m), u = .finite s m (k - 52) hm ∧ a = s.apply n ∧
      m.log2 = 52 ∧ m * 2 ^ k = n * 2 ^ 52 := by
  rcases u with _ | _ | s | ⟨s, m, e, hm⟩
  · exact h.elim
  · exact h.elim
  · exact .inl ⟨s, rfl, h⟩
  · obtain ⟨hlog, n, k, ha, rfl, hvalue⟩ := h
    exact .inr ⟨s, m, n, k, hm, rfl, ha, hlog, hvalue⟩

/-- What a double carries, it carries exactly. -/
theorem Carries.nearest_eq (h : Carries u a) : nearest a = a := by
  obtain ⟨_, -, rfl⟩ | ⟨s, m, n, k, hm, -, rfl, hlog, hvalue⟩ := h.zero_or_finite
  · rfl
  · have hk := log2_add_eq hm hvalue
    have hrounded := roundShift_eq_nearestNat hlog.ge hvalue
    rw [hlog, Nat.sub_self, roundShift_zero, show n.log2 = k by omega, hvalue] at hrounded
    rw [nearest_apply, ← Nat.eq_of_mul_eq_mul_right (by decide) hrounded]

/-- The negation of a float carries the negation. -/
theorem Carries.neg (h : Carries u a) : Carries u.neg (-a) := by
  obtain ⟨s, rfl, rfl⟩ | ⟨s, m, n, k, hm, rfl, rfl, hlog, hvalue⟩ := h.zero_or_finite
  · rfl
  · refine ⟨hlog, n, k, ?_, rfl, hvalue⟩
    cases s
    · exact Int.neg_neg (n : Int)
    · rfl

/-- A sum of floats carries the rounded sum. -/
theorem Carries.add (hu : Carries u a) (hv : Carries v b) :
    Carries (UnpackedFloat.add binary64 u v) (nearest (a + b)) := by
  obtain ⟨s, rfl, rfl⟩ | ⟨s, m, x, j, hm, rfl, rfl, hmlog, hx⟩ := hu.zero_or_finite
  · rw [Int.zero_add, hv.nearest_eq]
    obtain ⟨t, rfl, rfl⟩ | ⟨t, n, y, k, hn, rfl, rfl, hnlog, hy⟩ := hv.zero_or_finite
    · cases s <;> cases t <;> rfl
    · exact hv
  obtain ⟨t, rfl, rfl⟩ | ⟨t, n, y, k, hn, rfl, rfl, hnlog, hy⟩ := hv.zero_or_finite
  · rw [Int.add_zero, hu.nearest_eq]
    exact hu
  -- both mantissas are brought to the smaller exponent
  have hmin : min ((j : Int) - 52) (k - 52) = (min j k : Nat) - (52 : Nat) := by omega
  have hj : ((j : Int) - 52 - ((min j k : Nat) - (52 : Nat))).toNat = j - min j k := by omega
  have hk : ((k : Int) - 52 - ((min j k : Nat) - (52 : Nat))).toNat = k - min j k := by omega
  unfold UnpackedFloat.add UnpackedFloat.decreaseExponent
  simp only [hmin, hj, hk, Nat.shiftLeft_eq]
  refine carries_normalize ?_ (by decide)
  have hscale (p q i : Nat) (h : p * 2 ^ i = q * 2 ^ 52) (hi : min j k ≤ i) :
      ((p * 2 ^ (i - min j k) : Nat) : Int) * 2 ^ min j k = q * 2 ^ 52 := by
    rw [← Nat.sub_add_cancel hi, Nat.pow_add, ← Nat.mul_assoc] at h
    exact_mod_cast h
  rw [Int.add_mul, Int.add_mul, ← apply_mul, ← apply_mul, ← apply_mul, ← apply_mul,
    hscale m x j hx (Nat.min_le_left j k), hscale n y k hy (Nat.min_le_right j k)]

/-- A product of floats carries the rounded product. -/
theorem Carries.mul (hu : Carries u a) (hv : Carries v b) :
    Carries (UnpackedFloat.mul binary64 u v) (nearest (a * b)) := by
  obtain ⟨s, rfl, rfl⟩ | ⟨s, m, x, j, hm, rfl, rfl, hmlog, hx⟩ := hu.zero_or_finite
  · rw [Int.zero_mul]
    obtain ⟨t, rfl, rfl⟩ | ⟨t, n, y, k, hn, rfl, rfl, hnlog, hy⟩ := hv.zero_or_finite <;> rfl
  obtain ⟨t, rfl, rfl⟩ | ⟨t, n, y, k, hn, rfl, rfl, hnlog, hy⟩ := hv.zero_or_finite
  · rw [Int.mul_zero]
    rfl
  have hvalue : m * n * 2 ^ (j + k) = x * y * 2 ^ 104 := by
    rw [Nat.pow_add, Nat.mul_mul_mul_comm, hx, hy, Nat.mul_mul_mul_comm, ← Nat.pow_add]
  have hlarge : 52 ≤ (m * n).log2 := by
    rw [Nat.le_log2 (Nat.mul_pos hm hn).ne']
    exact ((Nat.le_log2 hm.ne').1 hmlog.ge).trans (Nat.le_mul_of_pos_right m hn)
  have hsign : s.apply x * t.apply y = (s * t).apply (x * y : Nat) := by
    push_cast
    cases s <;> cases t
    · exact Int.neg_mul_neg x y
    · exact Int.neg_mul x y
    · exact Int.mul_neg x y
    · rfl
  have hround := carries_roundWithAccuracy (s * t) hlarge hvalue (by decide)
  rw [hsign, nearest_apply]
  unfold UnpackedFloat.mul
  convert hround using 2
  omega

/-- Subtraction is the addition of the negation. -/
theorem sub_eq_add_neg (u v : UnpackedFloat) :
    UnpackedFloat.sub binary64 u v = UnpackedFloat.add binary64 u v.neg := by
  rcases u with s | _ | s | ⟨s, m, e, hm⟩ <;> rcases v with t | _ | t | ⟨t, n, f, hn⟩ <;> try rfl
  cases t <;> simp [UnpackedFloat.sub, UnpackedFloat.add, UnpackedFloat.neg, Sign.apply,
    Int.sub_eq_add_neg]

/-- A difference of floats carries the rounded difference. -/
theorem Carries.sub (hu : Carries u a) (hv : Carries v b) :
    Carries (UnpackedFloat.sub binary64 u v) (nearest (a - b)) := by
  rw [sub_eq_add_neg, Int.sub_eq_add_neg]
  exact hu.add hv.neg

end Arithmetic

/-! ## Comparison -/

theorem compare_neg (i j : Int) : compare (-i) (-j) = (compare i j).swap := by
  rw [Int.compare_swap]
  simp only [compare, compareOfLessAndEq, Int.neg_lt_neg_iff, Int.neg_inj, eq_comm]

theorem compare_natCast (m n : Nat) : compare (m : Int) n = compare m n := by
  simp only [compare, compareOfLessAndEq, Int.ofNat_lt, Int.ofNat_inj]

/-- Where a number stands: infinities outermost, zero in the middle, all others by exponent and then
by mantissa. -/
def standing : UnpackedFloat → Int × Int × Int
  | .infinity .negative => (-2, 0, 0)
  | .finite .negative m e _ => (-1, -e, -m)
  | .zero _ | .notANumber => (0, 0, 0)
  | .finite .positive m e _ => (1, e, m)
  | .infinity .positive => (2, 0, 0)

theorem compare_pair {α β : Type} [Ord α] [Ord β] (a c : α) (b d : β) :
    compare (a, b) (c, d) = (compare a c).then (compare b d) := rfl

/-- Floats that are numbers are compared by their standing. -/
theorem compare_eq_standing {u v : UnpackedFloat} (hu : u ≠ .notANumber) (hv : v ≠ .notANumber) :
    u.compare v = some (compareKeys standing u v) := by
  rcases u with (_ | _) | _ | _ | ⟨_ | _, m, e, hm⟩ <;>
    rcases v with (_ | _) | _ | _ | ⟨_ | _, n, f, hn⟩ <;>
    first
    | contradiction
    | rfl
    | simp [UnpackedFloat.compare, compareKeys, standing, compare_pair, compare_neg,
        compare_natCast, Ordering.swap_then]

/-- An undefined number has no place. -/
theorem compare_notANumber (u : UnpackedFloat) :
    u.compare .notANumber = none ∧ UnpackedFloat.compare .notANumber u = none := by
  cases u <;> exact ⟨rfl, rfl⟩

/-- Of two mantissas with 53 bits the one with the larger exponent has the larger value. -/
theorem lt_of_exponent_lt {m n x y j k : Nat} (hm : 0 < m) (hn : 0 < n) (hmlog : m.log2 = 52)
    (hnlog : n.log2 = 52) (hx : m * 2 ^ j = x * 2 ^ 52) (hy : n * 2 ^ k = y * 2 ^ 52) (h : j < k) :
    x < y := by
  refine Nat.lt_of_mul_lt_mul_right (a := 2 ^ 52) ?_
  calc x * 2 ^ 52 = m * 2 ^ j := hx.symm
    _ < 2 ^ 53 * 2 ^ j :=
      Nat.mul_lt_mul_of_pos_right ((Nat.log2_lt hm.ne').1 (by omega)) (Nat.two_pow_pos j)
    _ = 2 ^ 52 * 2 ^ (j + 1) := by rw [← Nat.pow_add, ← Nat.pow_add]; congr 1; omega
    _ ≤ 2 ^ 52 * 2 ^ k := Nat.mul_le_mul_left _ (Nat.pow_le_pow_right (by decide) h)
    _ ≤ n * 2 ^ k := Nat.mul_le_mul_right _ ((Nat.le_log2 hn.ne').1 hnlog.ge)
    _ = y * 2 ^ 52 := hy

/-- Factors that are powers of two do not matter to comparisons. -/
theorem compare_mul_right {m n : Nat} (j : Nat) :
    compare (m * 2 ^ j) (n * 2 ^ j) = compare m n := by
  simp only [compare, compareOfLessAndEq, Nat.mul_lt_mul_right (Nat.two_pow_pos j),
    Nat.mul_left_inj (Nat.two_pow_pos j).ne']

/-- Mantissas of full length are compared by their exponents first. -/
theorem compare_magnitudes {m n x y j k : Nat} (hm : 0 < m) (hn : 0 < n) (hmlog : m.log2 = 52)
    (hnlog : n.log2 = 52) (hx : m * 2 ^ j = x * 2 ^ 52) (hy : n * 2 ^ k = y * 2 ^ 52) :
    (compare ((j : Int) - 52) (k - 52)).then (compare m n) = compare (x : Int) y := by
  rw [compare_natCast]
  rcases Nat.lt_trichotomy j k with h | rfl | h
  · rw [Int.compare_eq_lt.2 (by omega),
      Nat.compare_eq_lt.2 (lt_of_exponent_lt hm hn hmlog hnlog hx hy h), Ordering.lt_then]
  · rw [Int.compare_eq_eq.2 rfl, Ordering.eq_then, ← compare_mul_right j, hx, hy, compare_mul_right]
  · rw [Int.compare_eq_gt.2 (by omega),
      Nat.compare_eq_gt.2 (lt_of_exponent_lt hn hm hnlog hmlog hy hx h), Ordering.gt_then]

/-- Floats are compared like the integers that they carry. -/
theorem Carries.compare_eq {u v : UnpackedFloat} {a b : Int} (hu : Carries u a) (hv : Carries v b) :
    u.compare v = some (compare a b) := by
  obtain ⟨s, rfl, rfl⟩ | ⟨s, m, x, j, hm, rfl, rfl, hmlog, hx⟩ := hu.zero_or_finite <;>
    obtain ⟨t, rfl, rfl⟩ | ⟨t, n, y, k, hn, rfl, rfl, hnlog, hy⟩ := hv.zero_or_finite
  · rfl
  · have hpos := pos_of_mul_eq hn hy
    cases t
    · exact congrArg some (Int.compare_eq_gt.2 (by simp only [Sign.apply]; omega)).symm
    · exact congrArg some (Int.compare_eq_lt.2 (by simp only [Sign.apply]; omega)).symm
  · have hpos := pos_of_mul_eq hm hx
    cases s
    · exact congrArg some (Int.compare_eq_lt.2 (by simp only [Sign.apply]; omega)).symm
    · exact congrArg some (Int.compare_eq_gt.2 (by simp only [Sign.apply]; omega)).symm
  · have hmagnitudes := compare_magnitudes hm hn hmlog hnlog hx hy
    have hxpos := pos_of_mul_eq hm hx
    have hypos := pos_of_mul_eq hn hy
    cases s <;> cases t
    · simp only [UnpackedFloat.compare, hmagnitudes, Sign.apply, compare_neg]
    · exact congrArg some (Int.compare_eq_lt.2 (by simp only [Sign.apply]; omega)).symm
    · exact congrArg some (Int.compare_eq_gt.2 (by simp only [Sign.apply]; omega)).symm
    · exact congrArg some hmagnitudes

/-! ## Doubles -/

/-- The double is the whole number. -/
def IsWhole (x : Float) (z : Int) : Prop := Carries x.toModel.unpack z

section Floats

variable {x y : Float} {a b : Int}

/-- Whole numbers of this size are in the range of doubles. -/
theorem Carries.unpack_pack {u : UnpackedFloat} (h : Carries u a) (ha : a.natAbs < 2 ^ 128) :
    (Float.Model.pack u).unpack = u := by
  obtain ⟨s, rfl, -⟩ | ⟨s, m, n, k, hm, rfl, rfl, hlog, hvalue⟩ := h.zero_or_finite
  · exact unpack_pack_zero s
  · have hn := pos_of_mul_eq hm hvalue
    have hsize : (s.apply n).natAbs = n := by cases s <;> simp [Sign.apply]
    have hk := log2_add_eq hm hvalue
    have hbits := (Nat.log2_lt hn.ne').2 (hsize ▸ ha)
    exact unpack_pack_finite s hm hlog (by omega) (by omega)

/-- A float that is a whole number is read back as that number. -/
theorem IsWhole.toInt? (h : IsWhole x a) : (Binary.ofFloat x).toInt? = some a := by
  rw [ofFloat_eq]
  have hsigned (s : Sign) (n : Nat) : (if s == .negative then -(n : Int) else n) = s.apply n := by
    cases s <;> rfl
  obtain ⟨s, hu, rfl⟩ | ⟨s, m, n, k, hm, hu, rfl, hlog, hvalue⟩ := Carries.zero_or_finite h
  · rw [hu]
    simp only [exactValue, Binary.toInt?]
    rw [if_neg (by decide), Nat.zero_mod, if_pos rfl, Nat.zero_div]
    cases s <;> rfl
  · rw [hu]
    simp only [exactValue, Binary.toInt?, Nat.pow_eq]
    rcases Nat.lt_or_ge k 52 with hlt | hle
    · have hn : m = n * 2 ^ (-((k : Int) - 52)).toNat := by
        rw [show (-((k : Int) - 52)).toNat = 52 - k by omega]
        refine Nat.eq_of_mul_eq_mul_right (Nat.two_pow_pos k) ?_
        rw [Nat.mul_assoc, ← Nat.pow_add, Nat.sub_add_cancel hlt.le, hvalue]
      rw [if_neg (by omega), hn, Nat.mul_mod_left, if_pos rfl,
        Nat.mul_div_cancel _ (Nat.two_pow_pos _)]
      exact congrArg some (hsigned s n)
    · have hn : m * 2 ^ ((k : Int) - 52).toNat = n := by
        rw [show ((k : Int) - 52).toNat = k - 52 by omega]
        refine Nat.eq_of_mul_eq_mul_right (Nat.two_pow_pos 52) ?_
        rw [Nat.mul_assoc, ← Nat.pow_add, Nat.sub_add_cancel hle, hvalue]
      rw [if_pos (by omega), hn]
      exact congrArg some (hsigned s n)

/-- Packing keeps what is in range. -/
theorem isWhole_pack {u : UnpackedFloat} (h : Carries u a) (ha : a.natAbs < 2 ^ 128) :
    IsWhole (.ofModel (.pack u)) a := by
  change Carries (Float.Model.pack u).unpack a
  rwa [h.unpack_pack ha]

section Operations

variable (hx : IsWhole x a) (hy : IsWhole y b)

include hx

/-- The negation of a whole number is one. -/
theorem IsWhole.neg (ha : a.natAbs < 2 ^ 128) : IsWhole (-x) (-a) :=
  isWhole_pack (Carries.neg hx) (by rwa [Int.natAbs_neg])

include hy

theorem IsWhole.add (h : (nearest (a + b)).natAbs < 2 ^ 128) :
    IsWhole (x + y) (nearest (a + b)) :=
  isWhole_pack (Carries.add hx hy) h

theorem IsWhole.sub (h : (nearest (a - b)).natAbs < 2 ^ 128) :
    IsWhole (x - y) (nearest (a - b)) :=
  isWhole_pack (Carries.sub hx hy) h

theorem IsWhole.mul (h : (nearest (a * b)).natAbs < 2 ^ 128) :
    IsWhole (x * y) (nearest (a * b)) :=
  isWhole_pack (Carries.mul hx hy) h

end Operations

/-! ## Comparison of doubles -/

theorem isNaN_iff (x : Float) : x.isNaN = true ↔ x.toModel.unpack = .notANumber :=
  UnpackedFloat.isNaN_iff

/-- The order of floats is that of their unpacked forms. -/
theorem lt_iff (x y : Float) :
    x < y ↔ x.toModel.unpack.compare y.toModel.unpack = some .lt := by
  change decide (x.toModel < y.toModel) = true ↔ _
  rw [decide_eq_true_iff]
  exact beq_iff_eq

/-- Floats are equal if their unpacked forms compare as equal. -/
theorem beq_iff (x y : Float) :
    (x == y) = true ↔ x.toModel.unpack.compare y.toModel.unpack = some .eq := by
  change (x.toModel.unpack.compare y.toModel.unpack == some .eq) = true ↔ _
  exact beq_iff_eq

/-- Doubles are compared like their unpacked forms. -/
theorem compareFloats_eq (x y : Float) :
    compareFloats x y = x.toModel.unpack.compare y.toModel.unpack := by
  rw [compareFloats, if_congr (lt_iff x y) rfl rfl, if_congr (beq_iff x y) rfl rfl,
    if_congr (lt_iff y x) rfl rfl]
  generalize x.toModel.unpack = u
  generalize y.toModel.unpack = v
  by_cases hu : u = .notANumber
  · simp [hu, compare_notANumber]
  by_cases hv : v = .notANumber
  · simp [hv, compare_notANumber]
  have := compareKeys_trans standing
  have hswap : compareKeys standing v u = (compareKeys standing u v).swap := Std.OrientedCmp.eq_swap
  rw [compare_eq_standing hu hv, compare_eq_standing hv hu, hswap]
  cases compareKeys standing u v <;> decide

/-- Whole numbers are compared as integers. -/
theorem IsWhole.compareFloats_eq (hx : IsWhole x a) (hy : IsWhole y b) :
    compareFloats x y = some (compare a b) :=
  (Double.compareFloats_eq x y).trans (Carries.compare_eq hx hy)

/-- Whole numbers are equal as floats if they are equal as integers. -/
theorem IsWhole.beq_eq (hx : IsWhole x a) (hy : IsWhole y b) : (x == y) = (compare a b == .eq) := by
  rw [Bool.eq_iff_iff, beq_iff, Carries.compare_eq hx hy, Option.some_inj, beq_iff_eq]

end Floats

end Double

end QuadAlgebra
