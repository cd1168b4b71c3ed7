import Mathlib.Algebra.GroupWithZero.Nat

/-!
# Bits of registers

32-bit words with the tests made on single bits of them, and their fields in natural numbers (`toNat_and_mask`,
`toNat_and_not_mask`, `toNat_shiftRight`). A status register latches bits and is acknowledged by a write that clears the
bits written (`has_latch`, `has_ack`).
-/

set_option autoImplicit false

namespace Osx360.Lib

abbrev Word := BitVec 32

/-- `BITn`. -/
def bit (n : ℕ) : Word := BitVec.twoPow 32 n

/-- `value & mask` in a condition. -/
def has (w mask : Word) : Bool := w &&& mask != 0

/-! ## Tests -/

section Bits

variable {a b w : Word} {n : ℕ}

/-- A test of one bit. -/
theorem and_twoPow_bne {k : ℕ} {x : BitVec k} (hn : n < k) : (x &&& BitVec.twoPow k n != 0#k) = x.getLsbD n := by
  rw [BitVec.and_twoPow]
  cases h : x.getLsbD n
  · simp
  · have hne : BitVec.twoPow k n ≠ 0#k := by
      intro he
      have hn' := congrArg (fun x => x.getLsbD n) he
      simp [hn] at hn'
    simpa using hne

theorem has_bit (hn : n < 32) : has w (bit n) = w.getLsbD n := and_twoPow_bne hn

@[simp] theorem has_zero (m : Word) : has 0#32 m = false := by simp [has]

theorem has_or (hn : n < 32) : has (a ||| b) (bit n) = (has a (bit n) || has b (bit n)) := by
  rw [has_bit hn, has_bit hn, has_bit hn, BitVec.getLsbD_or]

theorem has_and (hn : n < 32) : has (a &&& b) (bit n) = (has a (bit n) && has b (bit n)) := by
  rw [has_bit hn, has_bit hn, has_bit hn, BitVec.getLsbD_and]

theorem has_not (hn : n < 32) : has (~~~a) (bit n) = !has a (bit n) := by
  rw [has_bit hn, has_bit hn, BitVec.getLsbD_not, decide_eq_true hn, Bool.true_and]

theorem has_bit_bit {m : ℕ} (hn : n < 32) : has (bit m) (bit n) = decide (m = n) := by
  rw [has_bit hn, bit, BitVec.getLsbD_twoPow]
  by_cases h : m = n
  · subst h; simp [hn]
  · simp [h]

/-- A value below `2 ^ n` does not have bit `n`. -/
theorem has_of_lt (hn : n < 32) (h : w.toNat < 2 ^ n) : has w (bit n) = false := by
  rw [has_bit hn, BitVec.getLsbD, Nat.testBit_lt_two_pow h]

/-- Clearing an absent bit changes nothing. -/
theorem and_not_bit (hn : n < 32) (h : has w (bit n) = false) : w &&& ~~~bit n = w := by
  rw [has_bit hn] at h
  ext i hi
  rw [BitVec.getElem_and, BitVec.getElem_not, bit, BitVec.getElem_twoPow]
  by_cases he : n = i
  · subst he; rw [BitVec.getLsbD_eq_getElem hi] at h; simp [h]
  · simp [Ne.symm he]

end Bits

/-! ## Fields -/

section Fields

variable {x : Word} {k m n : ℕ}

/-- A mask of low bits. -/
theorem toNat_and_mask (hm : m = 2 ^ n - 1) (hn : n ≤ 32) : (x &&& BitVec.ofNat 32 m).toNat = x.toNat % 2 ^ n := by
  have hlt : m < 2 ^ 32 := by
    have := Nat.pow_le_pow_right (n := 2) (by decide) hn
    have := Nat.two_pow_pos n
    omega
  rw [BitVec.toNat_and, BitVec.toNat_ofNat, Nat.mod_eq_of_lt hlt, hm, Nat.and_two_pow_sub_one_eq_mod]

theorem and_mask_eq_setWidth (hm : m = 2 ^ n - 1) (hn : n ≤ 32) :
    x &&& BitVec.ofNat 32 m = (x.setWidth n).setWidth 32 := by
  have hle : 2 ^ n ≤ 2 ^ 32 := Nat.pow_le_pow_right (by decide) hn
  have hlt := Nat.mod_lt x.toNat (Nat.two_pow_pos n)
  refine BitVec.eq_of_toNat_eq ?_
  rw [toNat_and_mask hm hn, BitVec.toNat_setWidth, BitVec.toNat_setWidth, Nat.mod_eq_of_lt (Nat.lt_of_lt_of_le hlt hle)]

/-- The rest of the bits: the value rounded down. -/
theorem toNat_and_not_mask (hm : m = 2 ^ n - 1) (hn : n ≤ 32) :
    (x &&& ~~~BitVec.ofNat 32 m).toNat = x.toNat / 2 ^ n * 2 ^ n := by
  have hdisjoint : (x &&& BitVec.ofNat 32 m) &&& (x &&& ~~~BitVec.ofNat 32 m) = 0#32 := by
    rw [BitVec.and_assoc, ← BitVec.and_assoc _ x, BitVec.and_comm _ x, BitVec.and_assoc x, BitVec.and_not_self]
    simp
  have hsum : (x &&& BitVec.ofNat 32 m) + (x &&& ~~~BitVec.ofNat 32 m) = x := by
    rw [BitVec.add_eq_or_of_and_eq_zero _ _ hdisjoint, ← BitVec.and_or_distrib_left, BitVec.or_not_self,
      BitVec.and_allOnes]
  have hadd := BitVec.toNat_add_of_and_eq_zero hdisjoint
  rw [hsum, toNat_and_mask hm hn] at hadd
  have hdiv := Nat.mod_add_div' x.toNat (2 ^ n)
  omega

theorem toNat_shiftRight (hk : k = 2 ^ n) : (x >>> n).toNat = x.toNat / k := by
  rw [BitVec.toNat_ushiftRight, Nat.shiftRight_eq_div_pow, hk]

theorem toNat_shiftLeft (hk : k = 2 ^ n) (h : x.toNat * k < 2 ^ 32) : (x <<< n).toNat = x.toNat * k := by
  rw [BitVec.toNat_shiftLeft, Nat.shiftLeft_eq, ← hk, Nat.mod_eq_of_lt h]

end Fields

/-! ## Status registers -/

section Status

variable {s : Word} {n : ℕ}

/-- Latching clears nothing. -/
theorem has_latch (hn : n < 32) (v : Word) (h : has s (bit n) = true) : has (s ||| v) (bit n) = true := by
  rw [has_or hn, h, Bool.true_or]

theorem has_latched (hn : n < 32) : has (s ||| bit n) (bit n) = true := by
  rw [has_or hn, has_bit_bit hn, decide_eq_true rfl, Bool.or_true]

/-- An acknowledgement clears the bits written. -/
theorem has_acked {v : Word} (hn : n < 32) (h : has v (bit n) = true) : has (s &&& ~~~v) (bit n) = false := by
  rw [has_and hn, has_not hn, h, Bool.not_true, Bool.and_false]

/-- A bit that an acknowledgement clears was set in the value written. -/
theorem has_ack {v : Word} (hn : n < 32) (h : has s (bit n) = true) :
    has (s &&& ~~~v) (bit n) = true ∨ has v (bit n) = true := by
  rw [has_and hn, has_not hn, h]
  cases has v (bit n)
  · exact Or.inl rfl
  · exact Or.inr rfl

end Status

end Osx360.Lib
