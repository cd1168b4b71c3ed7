import Mathlib.Data.List.TakeWhile
import Osx360.Lib.Bytes

/-!
# C strings

A pointer to characters is the sequence of the bytes from it on; a `CString` is a string constant, without NULs inside.
`strncmp` finds no difference iff the bytes agree up to the bound or the first NUL (`strncmp_eq_zero`): with the length
of a string as the bound iff the other one begins with it (`strncmp_strlen`), with a larger bound iff they are the same
string (`strncmp_of_lt`).
-/

set_option autoImplicit false

namespace Osx360.Lib

abbrev CharPtr := ℕ → Byte

structure CString where
  chars : List Byte
  nonzero : ∀ c ∈ chars, c ≠ 0

/-- The constant that a literal stands for, up to its first NUL. -/
def cstring (s : String) : CString where
  chars := (s.toList.map fun c => BitVec.ofNat 8 c.toNat).takeWhile fun c => c ≠ 0
  nonzero c hc := by simpa using List.mem_takeWhile_imp hc

def CString.strlen (s : CString) : ℕ := s.chars.length

/-- The constant in memory, with its NUL. -/
def CString.ptr (s : CString) : CharPtr := fun i => s.chars.getD i 0

def strncmp : CharPtr → CharPtr → ℕ → ℤ
  | _, _, 0 => 0
  | s, t, n + 1 =>
    if s 0 ≠ t 0 then (s 0).toNat - (t 0).toNat
    else if s 0 = 0 then 0
    else strncmp (fun i => s (i + 1)) (fun i => t (i + 1)) n

/-- The string at the pointer is this one, its NUL included. -/
def IsString (p : CharPtr) (s : CString) : Prop := ∀ i ≤ s.strlen, p i = s.ptr i

/-- The string at the pointer begins with this one. -/
def Begins (p : CharPtr) (s : CString) : Prop := ∀ i < s.strlen, p i = s.ptr i

instance (p : CharPtr) (s : CString) : Decidable (IsString p s) :=
  inferInstanceAs (Decidable (∀ i ≤ s.strlen, p i = s.ptr i))

instance (p : CharPtr) (s : CString) : Decidable (Begins p s) :=
  inferInstanceAs (Decidable (∀ i < s.strlen, p i = s.ptr i))

section Strings

variable {p q : CharPtr} {s : CString} {i n : ℕ}

theorem IsString.begins (h : IsString p s) : Begins p s := fun i hi => h i (Nat.le_of_lt hi)

theorem CString.ptr_ne_zero (hi : i < s.strlen) : s.ptr i ≠ 0 := by
  have hlt : i < s.chars.length := hi
  have hget : s.ptr i = s.chars[i] := by simp [CString.ptr, hlt]
  rw [hget]
  exact s.nonzero _ (List.getElem_mem _)

theorem CString.ptr_strlen (s : CString) : s.ptr s.strlen = 0 := by simp [CString.ptr, CString.strlen]

/-- **No difference.** A position counts while no NUL comes before it. -/
theorem strncmp_eq_zero : strncmp p q n = 0 ↔ ∀ i < n, (∀ j < i, q j ≠ 0) → p i = q i := by
  induction n generalizing p q with
  | zero => simp [strncmp]
  | succ n ih =>
    rw [strncmp]
    by_cases hne : p 0 = q 0
    · rw [if_neg (not_not.mpr hne)]
      by_cases hz : p 0 = 0
      · rw [if_pos hz]
        refine ⟨fun _ i hi hj => ?_, fun _ => rfl⟩
        cases i with
        | zero => exact hne
        | succ i => exact absurd (hne.symm.trans hz) (hj 0 (Nat.succ_pos i))
      · rw [if_neg hz, ih]
        constructor
        · intro h i hi hj
          cases i with
          | zero => exact hne
          | succ i => exact h i (Nat.lt_of_succ_lt_succ hi) fun j hji => hj (j + 1) (Nat.succ_lt_succ hji)
        · intro h i hi hj
          refine h (i + 1) (Nat.succ_lt_succ hi) fun j hji => ?_
          cases j with
          | zero => exact hne ▸ hz
          | succ j => exact hj j (Nat.lt_of_succ_lt_succ hji)
    · rw [if_pos hne]
      constructor
      · intro h
        exact absurd (BitVec.eq_of_toNat_eq (by omega)) hne
      · intro h
        exact absurd (h 0 (Nat.succ_pos n) fun j hj => absurd hj (Nat.not_lt_zero j)) hne

/-- Bounded by the length of a string, it finds whether the other begins with it. -/
theorem strncmp_strlen : strncmp s.ptr p s.strlen = 0 ↔ Begins p s := by
  rw [strncmp_eq_zero]
  constructor
  · intro h i
    induction i using Nat.strongRecOn with
    | ind i ih =>
      intro hi
      refine (h i hi fun j hj => ?_).symm
      rw [ih j hj (Nat.lt_trans hj hi)]
      exact CString.ptr_ne_zero (Nat.lt_trans hj hi)
  · intro h i hi _
    exact (h i hi).symm

/-- Bounded by more, it finds whether the other is the same string. -/
theorem strncmp_of_lt (hn : s.strlen < n) : strncmp p s.ptr n = 0 ↔ IsString p s := by
  rw [strncmp_eq_zero]
  constructor
  · intro h i hi
    exact h i (Nat.lt_of_le_of_lt hi hn) fun j hj => CString.ptr_ne_zero (Nat.lt_of_lt_of_le hj hi)
  · intro h i _ hj
    refine h i (Nat.le_of_not_lt fun hlt => ?_)
    exact hj s.strlen hlt s.ptr_strlen

end Strings

end Osx360.Lib
