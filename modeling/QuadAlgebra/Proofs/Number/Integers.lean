import QuadAlgebra.Proofs.Equivalence.Equalities
import QuadAlgebra.Proofs.Number.Doubles

/-!
# Arithmetic on integers

Integers are carried by doubles. So each operand counts as the double that is nearest to it, and a
sum, difference or product is the double that is nearest to the exact result; below `2 ^ 63` in size
it is written as an integer again (`Expression.value_integers`). All of this is exact as long as the
operands and the result have at most 53 significant bits, and the first integer that has more is not
told apart from its neighbour (`Expression.value_beyond_doubles`).
-/

namespace QuadAlgebra

open Float.Model (UnpackedFloat)
open Float.Model.Format (binary64)

/-! ## Reading integers -/

namespace Numeral

variable {n : Nat}

theorem isDigit_of_mem_toDigits : ∀ c ∈ Nat.toDigits 10 n, c.isDigit = true :=
  fun _ h => Nat.isDigit_of_mem_toDigits (by decide) (by decide) h

/-- The digits of a number are the whole numeral. -/
theorem read_toDigits : read (Nat.toDigits 10 n) = some ⟨n, 0⟩ := by
  have hwhole : digitRun (Nat.toDigits 10 n) = (Nat.toDigits 10 n, []) := by
    rw [digitRun, List.takeWhile_eq_self_iff.2 isDigit_of_mem_toDigits,
      List.dropWhile_eq_nil_iff.2 isDigit_of_mem_toDigits]
  have hvalue : valueOfDigits (Nat.toDigits 10 n) = n := Nat.ofDigitChars_ten_toDigits
  have hne : (Nat.toDigits 10 n).isEmpty = false :=
    List.isEmpty_eq_false_iff.2 Nat.toDigits_ne_nil
  rw [read, hwhole]
  simp [readExponent, hne, hvalue]

theorem splitSign_toDigits : splitSign (Nat.toDigits 10 n) = (false, Nat.toDigits 10 n) := by
  unfold splitSign
  split
  · next heq =>
    exact absurd (isDigit_of_mem_toDigits _ (heq ▸ List.mem_cons_self)) (by decide)
  · next heq =>
    exact absurd (isDigit_of_mem_toDigits _ (heq ▸ List.mem_cons_self)) (by decide)
  · rfl

end Numeral

/-- An integer is read from its digits, and its sign is put on afterwards. -/
theorem readFloat_repr (a : Int) : readFloat a.repr =
    some (if a < 0 then -(Numeral.toFloat ⟨a.natAbs, 0⟩) else Numeral.toFloat ⟨a.natAbs, 0⟩) := by
  have htext : Numeral.splitSign a.repr.toList = (decide (a < 0), Nat.toDigits 10 a.natAbs) := by
    rw [Int.repr_eq_if]
    split
    · next h =>
      rw [Nat.toList_repr, Numeral.splitSign_toDigits, decide_eq_false (Int.not_lt.2 h)]
      congr 2
      omega
    · next h =>
      rw [String.toList_append, Nat.toList_repr, decide_eq_true (Int.not_le.1 h)]
      change (true, Nat.toDigits 10 (-a).toNat) = _
      congr 2
      omega
  rw [readFloat, htext]
  simp [Numeral.read_toDigits]

namespace Double

theorem nearest_natCast (n : Nat) : nearest n = nearestNat n := nearest_apply .positive n

theorem isWhole_one : IsWhole (Float.ofBits 0x3FF0000000000000) 1 := by
  refine ⟨by decide +kernel, 1, 0, rfl, by decide +kernel, ?_⟩
  decide +kernel

theorem isWhole_zero : IsWhole 0.0 0 := by
  have hunpack : (0.0 : Float).toModel.unpack = .zero .positive := rfl
  rw [IsWhole, hunpack]
  rfl

/-- A word becomes the double that is nearest to it. -/
theorem isWhole_ofWord (n : UInt64) : IsWhole n.toFloat (nearest n.toNat) := by
  have hcarries : Carries (UnpackedFloat.normalize binary64 n.toNat 0 .positive)
    (nearest n.toNat) :=
    carries_normalize (i := 0) (j := 0) rfl (by decide)
  have hbound : nearestNat n.toNat ≤ 2 ^ 64 := nearestNat_le_two_pow n.toNat_lt.le
  refine isWhole_pack hcarries ?_
  rw [nearest_natCast, Int.natAbs_natCast]
  omega

theorem carries_ofScientific {n : Nat} (hn : 0 < n) :
    Carries (UnpackedFloat.ofScientific binary64 n 0) (nearestNat n) := by
  have hlarge : 52 ≤ (n * 2 ^ 53).log2 := by
    rw [log2_mul_two_pow hn]
    omega
  have hround := carries_roundWithAccuracy (i := 53) (j := 0) .positive hlarge (Nat.mul_one _)
    (by decide)
  have hlow : ¬ (0 : Int) < -((2 ^ 11 : Int) + n.log2) := by omega
  unfold UnpackedFloat.ofScientific
  rw [dif_neg hn.ne', if_neg (by decide), if_neg hlow, if_pos (by decide)]
  unfold UnpackedFloat.mul
  simp only [Int.toNat_zero, Nat.pow_zero, Nat.mul_one, Nat.shiftLeft_eq]
  exact hround

/-- A decimal without an exponent is read as the nearest double. -/
theorem isWhole_ofScientific {n : Nat} (hn : 0 < n) (hsize : n ≤ 2 ^ 64) :
    IsWhole (Float.ofScientific n false 0) (nearestNat n) := by
  have hbound : nearestNat n < 2 ^ 128 := (nearestNat_le_two_pow hsize).trans_lt (by decide)
  unfold Float.ofScientific
  split
  · next h =>
    have hself : nearestNat n = n := by simpa using nearestNat_mul h.1 0
    have hword : n.toUInt64.toNat = n := Nat.mod_eq_of_lt (by omega)
    have hproduct := (isWhole_ofWord n.toUInt64).mul isWhole_one
    rw [Int.mul_one, hword, nearest_natCast, hself, nearest_natCast, hself] at hproduct
    rw [hself]
    exact hproduct (by omega)
  · exact isWhole_pack (carries_ofScientific hn) (by omega)

/-- An integer of 64 bits is read as the nearest double. -/
theorem exists_readFloat {a : Int} (h : a.natAbs ≤ 2 ^ 63) :
    ∃ x, readFloat a.repr = some x ∧ IsWhole x (nearest a) := by
  have hbound : nearestNat a.natAbs ≤ 2 ^ 63 := nearestNat_le_two_pow h
  have hsize : IsWhole (Numeral.toFloat ⟨a.natAbs, 0⟩) (nearestNat a.natAbs) := by
    unfold Numeral.toFloat
    dsimp only
    have hlength : (a.natAbs).repr.length ≤ 20 := by
      rw [Nat.length_repr_le_iff (by decide)]
      omega
    split
    · next h =>
      rw [h]
      exact isWhole_zero
    · next h =>
      rw [if_neg (by omega), if_neg (by omega)]
      exact isWhole_ofScientific (Nat.pos_of_ne_zero h) (by omega)
  refine ⟨_, readFloat_repr a, ?_⟩
  split
  · next hneg =>
    rw [nearest, Int.sign_eq_neg_one_of_neg hneg, Int.neg_mul, Int.one_mul]
    exact hsize.neg (by omega)
  · next hpos =>
    rcases Int.lt_or_eq_of_le (Int.not_lt.1 hpos) with hpos | rfl
    · rw [nearest, Int.sign_eq_one_of_pos hpos, Int.one_mul]
      exact hsize
    · exact hsize

end Double

/-! ## Operators on integers -/

section Operators

open Double

/-- The exact operation that an arithmetic operator stands for. -/
def Symbol.operation? : Symbol → Option (Int → Int → Int)
  | .plus => some (· + ·)
  | .minus => some (· - ·)
  | .star => some (· * ·)
  | _ => none

/-- For which orderings of its operands a comparison holds. -/
def Symbol.comparison? : Symbol → Option (Ordering → Bool)
  | .equal => some (· == .eq)
  | .notEqual => some (· != .eq)
  | .lessThan => some (· == .lt)
  | .lessEqual => some (· != .gt)
  | .greaterThan => some (· == .gt)
  | .greaterEqual => some (· != .lt)
  | _ => none

variable {op : Symbol} {a b : Int}

theorem Term.number?_integer (ha : a.natAbs ≤ 2 ^ 63) :
    ∃ x, (Term.integer a).number? = some x ∧ IsWhole x (nearest a) := by
  obtain ⟨x, hread, hx⟩ := exists_readFloat ha
  exact ⟨x, by rw [Term.integer, Term.number?, if_pos (.inl rfl), hread], hx⟩

theorem Term.ofNumber_of_isWhole {x : Float} {z : Int} (h : IsWhole x z) :
    Term.ofNumber x true = if z.natAbs < 2 ^ 63 then .integer z else .double x := by
  rw [Term.ofNumber, h.toInt?]
  simp

/-- No arithmetic on integers of 64 bits leaves the range of doubles. -/
theorem Symbol.apply_operation {f : Int → Int → Int} (hop : op.operation? = some f)
    (ha : a.natAbs ≤ 2 ^ 63) (hb : b.natAbs ≤ 2 ^ 63) :
    ∃ x, IsWhole x (rounded f a b) ∧
      op.apply (.integer a) (.integer b) = some (Term.ofNumber x true) := by
  obtain ⟨x, hx, hwx⟩ := Term.number?_integer ha
  obtain ⟨y, hy, hwy⟩ := Term.number?_integer hb
  have hna := natAbs_nearest_le ha
  have hnb := natAbs_nearest_le hb
  have hrange {z : Int} (hz : z.natAbs ≤ 2 ^ 126) : (nearest z).natAbs < 2 ^ 128 :=
    (natAbs_nearest_le hz).trans_lt (by decide)
  have harith (g : Float → Float → Float) :
      arithmetic g (.integer a) (.integer b) = some (Term.ofNumber (g x y) true) := by
    rw [arithmetic, hx, hy]
    rfl
  cases op <;> cases hop
  · exact ⟨x + y, hwx.add hwy (hrange (by omega)), harith _⟩
  · exact ⟨x - y, hwx.sub hwy (hrange (by omega)), harith _⟩
  · have hproduct : (nearest a * nearest b).natAbs ≤ 2 ^ 63 * 2 ^ 63 := by
      rw [Int.natAbs_mul]
      exact Nat.mul_le_mul hna hnb
    exact ⟨x * y, hwx.mul hwy (hrange (hproduct.trans (by decide))), harith _⟩

theorem Symbol.apply_comparison {test : Ordering → Bool} (hop : op.comparison? = some test)
    (ha : a.natAbs ≤ 2 ^ 63) (hb : b.natAbs ≤ 2 ^ 63) : op.apply (.integer a) (.integer b) =
      some (.boolean (test (compare (nearest a) (nearest b)))) := by
  obtain ⟨x, hx, hwx⟩ := Term.number?_integer ha
  obtain ⟨y, hy, hwy⟩ := Term.number?_integer hb
  have hequal : (Term.integer a).equalValue (.integer b) =
      (compare (nearest a) (nearest b) == .eq) := by
    rw [Term.equalValue, hx, hy]
    exact hwx.beq_eq hwy
  have hcompare : (Term.integer a).compareValues (.integer b) =
      some (compare (nearest a) (nearest b)) := by
    simp only [Term.compareValues, hx, hy]
    exact hwx.compareFloats_eq hwy
  cases op <;> cases hop <;> simp only [Symbol.apply, hequal, hcompare] <;> rfl

/-- What the operators make of two integers, for any expressions that have them as values: each
operand counts as its nearest double, comparisons are exact on these, and arithmetic gives the
double that is nearest to their exact result, as an integer again if it stays below `2 ^ 63` in
size. With at most 53 significant bits everywhere nothing is rounded. -/
theorem Expression.value_integers {l r : Expression} {row : Solution}
    {found : List (List Solution)} (ha : -2 ^ 63 ≤ a ∧ a < 2 ^ 63) (hb : -2 ^ 63 ≤ b ∧ b < 2 ^ 63)
    (hl : l.value row (found.take l.existencePatterns.length) = some (.integer a))
    (hr : r.value row (found.drop l.existencePatterns.length) = some (.integer b)) :
    (∀ op f, Symbol.operation? op = some f → ∃ x,
      (Binary.ofFloat x).toInt? = some (rounded f a b) ∧
      (binary l op r).value row found =
        some (if (rounded f a b).natAbs < 2 ^ 63 then .integer (rounded f a b) else .double x)) ∧
    (∀ op test, Symbol.comparison? op = some test → (binary l op r).value row found =
      some (.boolean (test (compare (nearest a) (nearest b))))) ∧
    (Fits a → Fits b →
      (∀ op f, Symbol.operation? op = some f → Fits (f a b) → (f a b).natAbs < 2 ^ 63 →
        (binary l op r).value row found = some (.integer (f a b))) ∧
      ∀ op test, Symbol.comparison? op = some test →
        (binary l op r).value row found = some (.boolean (test (compare a b)))) ∧
    ∀ z, (nearest z = z ↔ Fits z) ∧ Fits (nearest z) ∧
      ∀ d, Fits d → (nearest z - z).natAbs ≤ (d - z).natAbs := by
  have hsizes : a.natAbs ≤ 2 ^ 63 ∧ b.natAbs ≤ 2 ^ 63 := by omega
  have hvalue {op : Symbol} (hand : op ≠ .and) (hor : op ≠ .or) :
      (binary l op r).value row found = op.apply (.integer a) (.integer b) := by
    rw [value_binary hand hor, hl, hr, Option.bind_some, Option.bind_some]
  have harith (op f) (hop : Symbol.operation? op = some f) : ∃ x,
      (Binary.ofFloat x).toInt? = some (rounded f a b) ∧ (binary l op r).value row found =
        some (if (rounded f a b).natAbs < 2 ^ 63 then .integer (rounded f a b) else .double x) := by
    obtain ⟨x, hx, happly⟩ := Symbol.apply_operation hop hsizes.1 hsizes.2
    refine ⟨x, hx.toInt?, ?_⟩
    rw [hvalue (by rintro rfl; cases hop) (by rintro rfl; cases hop), happly,
      Term.ofNumber_of_isWhole hx]
  have hcompare (op test) (hop : Symbol.comparison? op = some test) :
      (binary l op r).value row found =
        some (.boolean (test (compare (nearest a) (nearest b)))) := by
    rw [hvalue (by rintro rfl; cases hop) (by rintro rfl; cases hop)]
    exact Symbol.apply_comparison hop hsizes.1 hsizes.2
  refine ⟨harith, hcompare, fun hfa hfb => ⟨fun op f hop hfit hsize => ?_, fun op test hop => ?_⟩,
    fun z => ⟨nearest_eq_self_iff, fits_nearest z, fun d => nearest_spec z⟩⟩
  · have hexact : rounded f a b = f a b := by
      rw [rounded, nearest_eq_self_iff.2 hfa, nearest_eq_self_iff.2 hfb, nearest_eq_self_iff.2 hfit]
    obtain ⟨x, -, hx⟩ := harith op f hop
    rw [hx, hexact, if_pos hsize]
  · rw [hcompare op test hop, nearest_eq_self_iff.2 hfa, nearest_eq_self_iff.2 hfb]

/-- An odd number of 54 bits is rounded before three is added, and so is the sum. -/
theorem Expression.value_integers_oddSum :
    (constant (.integer 9007199254740993)).value (.ofList [(⟨"n"⟩, .integer 3)]) [] =
      some (.integer 9007199254740993) ∧
    («variable» ⟨"n"⟩).value (.ofList [(⟨"n"⟩, .integer 3)]) [] = some (.integer 3) ∧
    (binary (constant (.integer 9007199254740993)) .plus («variable» ⟨"n"⟩)).value
      (.ofList [(⟨"n"⟩, .integer 3)]) [] = some (.integer 9007199254740996) := by
  have hl : (constant (.integer 9007199254740993)).value (.ofList [(⟨"n"⟩, .integer 3)]) [] =
    some (.integer 9007199254740993) := by rw [value]
  have hr : («variable» ⟨"n"⟩).value (.ofList [(⟨"n"⟩, .integer 3)]) [] = some (.integer 3) := by
    rw [value]
    decide
  obtain ⟨x, -, hx⟩ := (value_integers (by decide) (by decide) hl hr).1 .plus _ rfl
  have hsum : rounded (· + ·) 9007199254740993 3 = 9007199254740996 := by decide
  rw [hsum, if_pos (by decide)] at hx
  exact ⟨hl, hr, hx⟩

/-- Two integers that differ in the last of 54 bits are the same double. So a sum that fits in 64
bits need not be exact. -/
theorem Expression.value_beyond_doubles : ¬ ∀ a b : Int, (-2 ^ 63 ≤ a ∧ a < 2 ^ 63) →
    (-2 ^ 63 ≤ b ∧ b < 2 ^ 63) → (-2 ^ 63 ≤ a + b ∧ a + b < 2 ^ 63) →
    (binary (constant (.integer a)) .plus (constant (.integer b))).value ∅ [] =
      some (.integer (a + b)) := by
  intro h
  have hexact := h 9007199254740993 0 (by decide) (by decide) (by decide)
  have hvalue : (binary (constant (.integer 9007199254740993)) .plus
      (constant (.integer 0))).value ∅ [] = some (.integer 9007199254740992) := by decide +kernel
  rw [hvalue] at hexact
  exact absurd hexact (by decide)

end Operators

end QuadAlgebra
