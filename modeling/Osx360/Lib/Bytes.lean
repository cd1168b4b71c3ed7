import Mathlib.Algebra.GroupWithZero.Nat
import Mathlib.Data.List.Basic

/-!
# Byte strings

Byte strings that are written in place and read by offset.

- `splice` overwrites, `slice` reads; where a string is known as an append, what is overwritten or read is the middle
  part (`splice_append`, `slice_append`);
- 32-bit numbers, most significant byte first (`readBe_be32`), numbers of any length, least significant byte first
  (`readLe_leBytes`), and tables of records of one size (`slice_flatMap`);
- strings of whole words, and back (`bytesBe_wordsBe`).
-/

set_option autoImplicit false

namespace Osx360.Lib

universe u

abbrev Byte := BitVec 8

/-! ## Slices -/

section Slices

variable {α β : Type u} {xs ys zs d : List α} {i n : ℕ}

/-- The `n` items at `i`. -/
def slice (xs : List α) (i n : ℕ) : List α := (xs.drop i).take n

/-- `d` written at `i`. -/
def splice (xs : List α) (i : ℕ) (d : List α) : List α := xs.take i ++ d ++ xs.drop (i + d.length)

theorem slice_append (hi : i = xs.length) (hn : n = ys.length) : slice (xs ++ (ys ++ zs)) i n = ys := by
  rw [slice, hi, hn, List.drop_left, List.take_left]

/-- A slice of the second part. -/
theorem slice_append_right (hi : xs.length ≤ i) : slice (xs ++ ys) i n = slice ys (i - xs.length) n := by
  rw [slice, slice, List.drop_append, List.drop_of_length_le hi, List.nil_append]

theorem splice_append (hi : i = xs.length) (hd : d.length = ys.length) :
    splice (xs ++ (ys ++ zs)) i d = xs ++ (d ++ zs) := by
  rw [splice, hi, hd, List.take_left, ← List.drop_drop, List.drop_left, List.drop_left, List.append_assoc]

/-- The record at an index of a table. -/
theorem slice_flatMap {f : β → List α} (hf : ∀ x, (f x).length = n) (bs : List β) (i : ℕ) (hi : i < bs.length) :
    slice (bs.flatMap f ++ ys) (n * i) n = f bs[i] := by
  induction bs generalizing i with
  | nil => cases hi
  | cons b bs ih =>
    rw [List.flatMap_cons, List.append_assoc]
    cases i with
    | zero => exact @slice_append _ [] _ _ _ _ (Nat.mul_zero n) (hf b).symm
    | succ i =>
      rw [slice_append_right (by rw [hf, Nat.mul_succ]; omega), hf, Nat.mul_succ, Nat.add_sub_cancel]
      exact ih i (Nat.lt_of_succ_lt_succ hi)

end Slices

/-! ## Numbers -/

section Numbers

/-- The four bytes of a number below `2 ^ 32`, most significant first. -/
def be32 (n : ℕ) : List Byte := [BitVec.ofNat 8 (n / 2 ^ 24), BitVec.ofNat 8 (n / 2 ^ 16), BitVec.ofNat 8 (n / 2 ^ 8),
  BitVec.ofNat 8 n]

/-- The number that bytes stand for, most significant first. -/
def readBe (bs : List Byte) : ℕ := bs.foldl (fun n b => 256 * n + b.toNat) 0

@[simp] theorem length_be32 (n : ℕ) : (be32 n).length = 4 := rfl

theorem readBe_be32 {n : ℕ} (h : n < 2 ^ 32) : readBe (be32 n) = n := by
  simp only [readBe, be32, List.foldl_cons, List.foldl_nil, BitVec.toNat_ofNat]
  omega

/-- The lowest `n` bytes of a number, least significant first. -/
def leBytes : ℕ → ℕ → List Byte
  | 0, _ => []
  | n + 1, v => BitVec.ofNat 8 v :: leBytes n (v / 256)

def readLe (bs : List Byte) : ℕ := bs.foldr (fun b v => b.toNat + 256 * v) 0

@[simp] theorem length_leBytes (n v : ℕ) : (leBytes n v).length = n := by
  induction n generalizing v with
  | zero => rfl
  | succ n ih => rw [leBytes, List.length_cons, ih]

theorem readLe_leBytes (n v : ℕ) : readLe (leBytes n v) = v % 256 ^ n := by
  induction n generalizing v with
  | zero => rw [Nat.pow_zero, Nat.mod_one]; rfl
  | succ n ih =>
    have hcons : readLe (leBytes (n + 1) v) = v % 256 + 256 * readLe (leBytes n (v / 256)) := rfl
    rw [hcons, ih, Nat.pow_succ', Nat.mod_mul]

end Numbers

/-! ## Words -/

section Words

/-- Four bytes a word, most significant first. -/
def wordsBe : List Byte → List (BitVec 32)
  | a :: b :: c :: d :: bs => (a ++ b ++ c ++ d) :: wordsBe bs
  | _ => []

def bytesBe (ws : List (BitVec 32)) : List Byte :=
  ws.flatMap fun w => [w.extractLsb' 24 8, w.extractLsb' 16 8, w.extractLsb' 8 8, w.extractLsb' 0 8]

theorem extractLsb'_bytes (a b c d : Byte) :
    (a ++ b ++ c ++ d).extractLsb' 24 8 = a ∧ (a ++ b ++ c ++ d).extractLsb' 16 8 = b ∧
      (a ++ b ++ c ++ d).extractLsb' 8 8 = c ∧ (a ++ b ++ c ++ d).extractLsb' 0 8 = d := by
  refine ⟨?_, ?_, ?_, ?_⟩ <;> ext i hi <;> simp <;> grind

theorem bytesBe_wordsBe : ∀ {bs : List Byte}, bs.length % 4 = 0 → bytesBe (wordsBe bs) = bs
  | [], _ => rfl
  | a :: b :: c :: d :: bs, h => by
    obtain ⟨ha, hb, hc, hd⟩ := extractLsb'_bytes a b c d
    have ih := @bytesBe_wordsBe bs (by simp at h; omega)
    rw [wordsBe, bytesBe, List.flatMap_cons, ha, hb, hc, hd]
    exact congrArg (a :: b :: c :: d :: ·) ih

theorem length_wordsBe : ∀ bs : List Byte, (wordsBe bs).length = bs.length / 4
  | [] | [_] | [_, _] | [_, _, _] => by simp [wordsBe]
  | _ :: _ :: _ :: _ :: bs => by
    rw [wordsBe, List.length_cons, length_wordsBe bs]
    simp
    omega

end Words

end Osx360.Lib
