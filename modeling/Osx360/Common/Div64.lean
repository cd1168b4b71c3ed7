import Mathlib.Algebra.GroupWithZero.Nat
import Osx360.Lib.Bits

/-!
# 64-bit division

`Div64_32` of `XenonCommon.hpp`: a long division in digits of 16 bits, the remainder of one digit put before the next.
Where no shift cuts a remainder (`DivFits`), the result is the quotient modulo `2 ^ 32` (`toNat_div64_32`); for divisors
up to `2 ^ 16` none does (`divFits`). Above them a remainder of more than 16 bits is cut, and the result is the quotient
exactly where there is no such remainder (`div64_32_eq_iff`).
-/

set_option autoImplicit false

namespace Osx360.Common

open Osx360.Lib

/-- The words that are divided, one for each digit. -/
structure DivWords where
  high : Word
  midHigh : Word
  midLow : Word
  low : Word

def divWords (dividend : BitVec 64) (divisor : Word) : DivWords :=
  let low : Word := 0xFFFF &&& dividend.setWidth 32
  let dividend := dividend >>> 16
  let midLow : Word := 0xFFFF &&& dividend.setWidth 32
  let dividend := dividend >>> 16
  let midHigh : Word := 0xFFFF &&& dividend.setWidth 32
  let high : Word := (dividend >>> 16).setWidth 32
  let midHigh := midHigh + (high % divisor) <<< 16
  let midLow := midLow + (midHigh % divisor) <<< 16
  let low := low + (midLow % divisor) <<< 16
  ⟨high, midHigh, midLow, low⟩

def div64_32 (dividend : BitVec 64) (divisor : Word) : Word :=
  let w := divWords dividend divisor
  let dividend : BitVec 64 := (w.high / divisor).setWidth 64
  let dividend := dividend <<< 16 + (w.midHigh / divisor).setWidth 64
  let dividend := dividend <<< 16 + (w.midLow / divisor).setWidth 64
  (dividend <<< 16 + (w.low / divisor).setWidth 64).setWidth 32

/-- The words are the sums, of a remainder shifted by a digit and the next digit, without a wrap. -/
structure DivFits (dividend : BitVec 64) (divisor : Word) : Prop where
  midHigh : (divWords dividend divisor).midHigh.toNat =
    dividend.toNat / 2 ^ 48 % divisor.toNat * 2 ^ 16 + dividend.toNat / 2 ^ 32 % 2 ^ 16
  midLow : (divWords dividend divisor).midLow.toNat =
    dividend.toNat / 2 ^ 32 % divisor.toNat * 2 ^ 16 + dividend.toNat / 2 ^ 16 % 2 ^ 16
  low : (divWords dividend divisor).low.toNat =
    dividend.toNat / 2 ^ 16 % divisor.toNat * 2 ^ 16 + dividend.toNat % 2 ^ 16

/-! ## Long division -/

section Long

variable {a b d x : ℕ}

/-- One more digit of a quotient. -/
theorem long_div (hd : 0 < d) : (a * b + x) / d = a / d * b + (a % d * b + x) / d := by
  have h : a * b + x = a % d * b + x + a / d * b * d := by
    have hdiv := congrArg (· * b) (Nat.div_add_mod a d)
    simp only [Nat.add_mul] at hdiv
    rw [Nat.mul_assoc, Nat.mul_comm b d, ← Nat.mul_assoc, Nat.mul_comm (a / d) d]
    omega
  rw [h, Nat.add_mul_div_right _ _ hd, Nat.add_comm]

/-- The remainder goes on with the remainder. -/
theorem long_mod : (a * b + x) % d = (a % d * b + x) % d := by
  simp [Nat.add_mod, Nat.mul_mod]

/-- The last digit of a quotient is what the remainder of the other digits gives. -/
theorem div_mod_digit (hd : 0 < d) (hx : x < b) : (a * b + x) / d % b = (a % d * b + x) / d := by
  have hlt : a % d * b + x < d * b := by
    have hmul : (a % d + 1) * b ≤ d * b := Nat.mul_le_mul_right b (Nat.mod_lt a hd)
    rw [Nat.add_mul] at hmul
    omega
  rw [long_div hd, Nat.add_comm, Nat.add_mul_mod_self_right, Nat.mod_eq_of_lt (Nat.div_lt_of_lt_mul hlt)]

/-- A divisor more makes another quotient. -/
theorem div_lt_div (hd : 0 < d) (h : a + d ≤ b) : a / d < b / d := by
  have hdiv : (a + d) / d ≤ b / d := Nat.div_le_div_right h
  rw [Nat.add_div_right a hd] at hdiv
  omega

end Long

section Div

variable {dividend : BitVec 64} {divisor : Word}

/-- A digit. -/
theorem toNat_digit (w : BitVec 64) : (0xFFFF &&& w.setWidth 32 : Word).toNat = w.toNat % 2 ^ 16 := by
  rw [BitVec.and_comm]
  refine (toNat_and_mask (n := 16) rfl (by decide)).trans ?_
  rw [BitVec.toNat_setWidth]
  omega

theorem toNat_shift (w : BitVec 64) (n : ℕ) : (w >>> n).toNat = w.toNat / 2 ^ n := by
  rw [BitVec.toNat_ushiftRight, Nat.shiftRight_eq_div_pow]

theorem split_mid (dividend : BitVec 64) :
    dividend.toNat / 2 ^ 48 * 2 ^ 16 + dividend.toNat / 2 ^ 32 % 2 ^ 16 = dividend.toNat / 2 ^ 32 := by omega

theorem split_low (dividend : BitVec 64) :
    dividend.toNat / 2 ^ 32 * 2 ^ 16 + dividend.toNat / 2 ^ 16 % 2 ^ 16 = dividend.toNat / 2 ^ 16 := by omega

theorem split_last (dividend : BitVec 64) :
    dividend.toNat / 2 ^ 16 * 2 ^ 16 + dividend.toNat % 2 ^ 16 = dividend.toNat := by omega

theorem toNat_high : (divWords dividend divisor).high.toNat = dividend.toNat / 2 ^ 48 := by
  have hlt := dividend.isLt
  simp only [divWords]
  rw [BitVec.toNat_setWidth, toNat_shift, toNat_shift, toNat_shift]
  omega

theorem divWords_midHigh : (divWords dividend divisor).midHigh =
    ((0xFFFF : Word) &&& (dividend >>> 16 >>> 16).setWidth 32) +
      ((divWords dividend divisor).high % divisor) <<< 16 := rfl

theorem divWords_midLow : (divWords dividend divisor).midLow =
    ((0xFFFF : Word) &&& (dividend >>> 16).setWidth 32) + ((divWords dividend divisor).midHigh % divisor) <<< 16 := rfl

theorem divWords_low : (divWords dividend divisor).low =
    ((0xFFFF : Word) &&& dividend.setWidth 32) + ((divWords dividend divisor).midLow % divisor) <<< 16 := rfl

/-- The sum of a shifted remainder and a digit: the word has no room for more than 16 bits of the remainder. -/
theorem toNat_sum {w digit : Word} {x : ℕ} (hdigit : digit.toNat = x) (hx : x < 2 ^ 16) :
    (digit + (w % divisor) <<< 16).toNat = w.toNat % divisor.toNat % 2 ^ 16 * 2 ^ 16 + x := by
  have hrem : ((w % divisor) <<< 16).toNat = w.toNat % divisor.toNat % 2 ^ 16 * 2 ^ 16 := by
    rw [BitVec.toNat_shiftLeft, Nat.shiftLeft_eq, BitVec.toNat_umod]
    omega
  rw [BitVec.toNat_add, hrem, hdigit]
  omega

theorem toNat_midHigh : (divWords dividend divisor).midHigh.toNat =
    dividend.toNat / 2 ^ 48 % divisor.toNat * 2 ^ 16 + dividend.toNat / 2 ^ 32 % 2 ^ 16 := by
  have hlt := dividend.isLt
  have hle : dividend.toNat / 2 ^ 48 % divisor.toNat ≤ dividend.toNat / 2 ^ 48 := Nat.mod_le _ _
  -- The high word is a digit, so this remainder is one as well.
  rw [divWords_midHigh, toNat_sum (toNat_digit _) (Nat.mod_lt _ (by decide)), toNat_high, toNat_shift, toNat_shift,
    Nat.mod_eq_of_lt (by omega), Nat.div_div_eq_div_mul, ← Nat.pow_add]

theorem toNat_midLow : (divWords dividend divisor).midLow.toNat =
    dividend.toNat / 2 ^ 32 % divisor.toNat % 2 ^ 16 * 2 ^ 16 + dividend.toNat / 2 ^ 16 % 2 ^ 16 := by
  rw [divWords_midLow, toNat_sum (toNat_digit _) (Nat.mod_lt _ (by decide)), toNat_midHigh, ← long_mod, split_mid,
    toNat_shift]

theorem toNat_low : (divWords dividend divisor).low.toNat =
    (divWords dividend divisor).midLow.toNat % divisor.toNat % 2 ^ 16 * 2 ^ 16 + dividend.toNat % 2 ^ 16 := by
  rw [divWords_low, toNat_sum (toNat_digit dividend) (Nat.mod_lt _ (by decide))]

/-- The remainder that goes into the low word, if the one before lost nothing. -/
theorem midLow_mod (h : dividend.toNat / 2 ^ 32 % divisor.toNat < 2 ^ 16) :
    (divWords dividend divisor).midLow.toNat % divisor.toNat = dividend.toNat / 2 ^ 16 % divisor.toNat := by
  rw [toNat_midLow, Nat.mod_eq_of_lt h, ← long_mod, split_low]

/-- The two remainders that a shift could cut are digits. -/
theorem divFits_of_lt (hmid : dividend.toNat / 2 ^ 32 % divisor.toNat < 2 ^ 16)
    (hlow : dividend.toNat / 2 ^ 16 % divisor.toNat < 2 ^ 16) : DivFits dividend divisor where
  midHigh := toNat_midHigh
  midLow := by rw [toNat_midLow, Nat.mod_eq_of_lt hmid]
  low := by rw [toNat_low, midLow_mod hmid, Nat.mod_eq_of_lt hlow]

/-- **Divisors up to `2 ^ 16`**: no remainder is too long for its shift. -/
theorem divFits (hd : 0 < divisor.toNat) (h : divisor.toNat ≤ 2 ^ 16) : DivFits dividend divisor :=
  divFits_of_lt (Nat.lt_of_lt_of_le (Nat.mod_lt _ hd) h) (Nat.lt_of_lt_of_le (Nat.mod_lt _ hd) h)

/-- One more digit of the quotient so far. -/
theorem toNat_quotient {q : BitVec 64} {w : Word} {n x : ℕ} (hd : 0 < divisor.toNat)
    (hq : q.toNat = n / divisor.toNat) (hw : w.toNat = n % divisor.toNat * 2 ^ 16 + x) (hn : n * 2 ^ 16 + x < 2 ^ 64) :
    (q <<< 16 + (w / divisor).setWidth 64).toNat = (n * 2 ^ 16 + x) / divisor.toNat := by
  have hle : (n * 2 ^ 16 + x) / divisor.toNat ≤ n * 2 ^ 16 + x := Nat.div_le_self _ _
  have hlong := long_div (a := n) (b := 2 ^ 16) (x := x) hd
  have hword : ((w / divisor).setWidth 64).toNat = (n % divisor.toNat * 2 ^ 16 + x) / divisor.toNat := by
    rw [BitVec.toNat_setWidth, BitVec.toNat_udiv, hw]
    exact Nat.mod_eq_of_lt (by omega)
  rw [BitVec.toNat_add, hword, BitVec.toNat_shiftLeft, Nat.shiftLeft_eq, hq, hlong]
  omega

/-- **The quotient**, modulo the width of the result. -/
theorem toNat_div64_32 (hd : 0 < divisor.toNat) (h : DivFits dividend divisor) :
    (div64_32 dividend divisor).toNat = dividend.toNat / divisor.toNat % 2 ^ 32 := by
  have hlt := dividend.isLt
  have hhigh : (((divWords dividend divisor).high / divisor).setWidth 64 : BitVec 64).toNat =
      dividend.toNat / 2 ^ 48 / divisor.toNat := by
    have hle : dividend.toNat / 2 ^ 48 / divisor.toNat ≤ dividend.toNat / 2 ^ 48 := Nat.div_le_self _ _
    rw [BitVec.toNat_setWidth, BitVec.toNat_udiv, toNat_high]
    exact Nat.mod_eq_of_lt (by omega)
  have hmidHigh := toNat_quotient hd hhigh h.midHigh (by omega)
  rw [split_mid] at hmidHigh
  have hmidLow := toNat_quotient hd hmidHigh h.midLow (by omega)
  rw [split_low] at hmidLow
  have hlow := toNat_quotient hd hmidLow h.low (by omega)
  rw [split_last] at hlow
  rw [div64_32, BitVec.toNat_setWidth]
  exact congrArg (· % 2 ^ 32) hlow

/-- Digits leave a word alone. -/
theorem toNat_digits {q : BitVec 64} {v w : Word} (hv : v.toNat < 2 ^ 16) (hw : w.toNat < 2 ^ 16) :
    (((q <<< 16 + v.setWidth 64) <<< 16 + w.setWidth 64).setWidth 32 : Word).toNat = v.toNat * 2 ^ 16 + w.toNat := by
  simp only [BitVec.toNat_setWidth, BitVec.toNat_add, BitVec.toNat_shiftLeft, Nat.shiftLeft_eq]
  omega

/-- The result for a divisor above the digits: the two last quotients. -/
theorem toNat_div64_32_digits (hd : 2 ^ 16 < divisor.toNat) : (div64_32 dividend divisor).toNat =
    (divWords dividend divisor).midLow.toNat / divisor.toNat * 2 ^ 16 +
      (divWords dividend divisor).low.toNat / divisor.toNat := by
  have hdigit : ∀ w : Word, (w / divisor).toNat < 2 ^ 16 := by
    intro w
    have hw := w.isLt
    rw [BitVec.toNat_udiv]
    exact Nat.div_lt_of_lt_mul (by omega)
  rw [← BitVec.toNat_udiv, ← BitVec.toNat_udiv, ← toNat_digits (hdigit _) (hdigit _), div64_32]

/-- A remainder that a shift cuts takes more than the divisor from what is divided. -/
theorem cut_le (h : 2 ^ 16 ≤ dividend.toNat / 2 ^ 32 % divisor.toNat ∨
      2 ^ 16 ≤ (divWords dividend divisor).midLow.toNat % divisor.toNat) :
    (divWords dividend divisor).low.toNat +
        (divWords dividend divisor).midLow.toNat / divisor.toNat * divisor.toNat * 2 ^ 16 + divisor.toNat ≤
      dividend.toNat / 2 ^ 32 % divisor.toNat * 2 ^ 32 + dividend.toNat % 2 ^ 32 := by
  have hlt := divisor.isLt
  have hmid := @toNat_midLow dividend divisor
  have hlow := @toNat_low dividend divisor
  have hdiv := Nat.div_add_mod' (divWords dividend divisor).midLow.toNat divisor.toNat
  omega

/-- **Divisors above the digits**: the result is right only if no shift cuts a remainder. -/
theorem lt_of_toNat_div64_32 (hd : 2 ^ 16 < divisor.toNat)
    (h : (div64_32 dividend divisor).toNat = dividend.toNat / divisor.toNat % 2 ^ 32) :
    dividend.toNat / 2 ^ 32 % divisor.toNat < 2 ^ 16 ∧ dividend.toNat / 2 ^ 16 % divisor.toNat < 2 ^ 16 := by
  have hpos : 0 < divisor.toNat := by omega
  have hcode : (div64_32 dividend divisor).toNat =
      ((divWords dividend divisor).low.toNat +
        (divWords dividend divisor).midLow.toNat / divisor.toNat * divisor.toNat * 2 ^ 16) / divisor.toNat := by
    rw [Nat.mul_right_comm, Nat.add_mul_div_right _ _ hpos, toNat_div64_32_digits hd, Nat.add_comm]
  have hquotient : dividend.toNat / divisor.toNat % 2 ^ 32 =
      (dividend.toNat / 2 ^ 32 % divisor.toNat * 2 ^ 32 + dividend.toNat % 2 ^ 32) / divisor.toNat := by
    have hdigit := div_mod_digit (a := dividend.toNat / 2 ^ 32) hpos (Nat.mod_lt dividend.toNat (Nat.two_pow_pos 32))
    rwa [Nat.div_add_mod'] at hdigit
  rw [hcode, hquotient] at h
  have hfit : ¬ (2 ^ 16 ≤ dividend.toNat / 2 ^ 32 % divisor.toNat ∨
      2 ^ 16 ≤ (divWords dividend divisor).midLow.toNat % divisor.toNat) :=
    fun hcut => absurd h (Nat.ne_of_lt (div_lt_div hpos (cut_le hcut)))
  obtain ⟨hmid, hlow⟩ := not_or.mp hfit
  rw [Nat.not_le] at hmid hlow
  exact ⟨hmid, midLow_mod hmid ▸ hlow⟩

/-- The divisors that are right for every dividend. -/
theorem forall_toNat_div64_32 (hd : 0 < divisor.toNat) :
    (∀ dividend : BitVec 64, (div64_32 dividend divisor).toNat = dividend.toNat / divisor.toNat % 2 ^ 32) ↔
      divisor.toNat ≤ 2 ^ 16 := by
  constructor
  · intro h
    refine Nat.le_of_not_lt fun hgt => ?_
    -- The dividend whose upper half is the first remainder that does not fit.
    have hlt := (lt_of_toNat_div64_32 hgt (h (BitVec.twoPow 64 48))).1
    have hhalf : (BitVec.twoPow 64 48).toNat / 2 ^ 32 = 2 ^ 16 := by decide
    rw [hhalf, Nat.mod_eq_of_lt hgt] at hlt
    exact Nat.lt_irrefl _ hlt
  · intro h dividend
    exact toNat_div64_32 hd (divFits hd h)

/-- **The quotient, exactly**: both remainders that are shifted into a word of two digits are digits themselves. -/
theorem div64_32_eq_iff (hd : 0 < divisor.toNat) :
    (div64_32 dividend divisor).toNat = dividend.toNat / divisor.toNat % 2 ^ 32 ↔
      dividend.toNat / 2 ^ 32 % divisor.toNat < 2 ^ 16 ∧ dividend.toNat / 2 ^ 16 % divisor.toNat < 2 ^ 16 := by
  constructor
  · intro h
    rcases Nat.lt_or_ge (2 ^ 16) divisor.toNat with hgt | hle
    · exact lt_of_toNat_div64_32 hgt h
    · exact ⟨Nat.lt_of_lt_of_le (Nat.mod_lt _ hd) hle, Nat.lt_of_lt_of_le (Nat.mod_lt _ hd) hle⟩
  · intro h
    exact toNat_div64_32 hd (divFits_of_lt h.1 h.2)

/-- At a divisor of 17 bits. -/
theorem div64_32_eq_iff_large : (div64_32 0x20003 0x10001).toNat = 0x20003 / 0x10001 % 2 ^ 32 :=
  (@div64_32_eq_iff 0x20003 0x10001 (by decide)).mpr ⟨by decide, by decide⟩

/-- The quotient is `0xFFFF0000`, the result 0. -/
theorem div64_32_cut :
    ¬ ∀ (dividend : BitVec 64) (divisor : Word), 0 < divisor.toNat →
      (div64_32 dividend divisor).toNat = dividend.toNat / divisor.toNat % 2 ^ 32 :=
  fun h => absurd (h 0x1000000000000 0x10001 (by decide)) (by decide)

end Div

end Osx360.Common
