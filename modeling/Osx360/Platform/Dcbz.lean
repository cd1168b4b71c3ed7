import Osx360.Lib.PowerPC
import Osx360.Platform.PmapEnter

/-!
# Which words are patched

The mask of `wrapPmapEnter` leaves three of the five bits of RT out, so it does not tell `dcbz` from the other forms of
the instruction. A page is patched as it should exactly if it holds none of these (`dcbz_patched_iff`).
-/

set_option autoImplicit false

namespace Osx360.Platform

open Osx360.Lib
open Osx360.Lib.PowerPC

/-! ## The mask -/

/-- The instruction that clears a cache block, of any form: opcode 31, extended opcode 1014 and Rc 0. -/
def IsBlockZero (w : Word) : Prop := opcode w = 31 ∧ xo w = 1014 ∧ rc w = 0

instance (w : Word) : Decidable (IsBlockZero w) := inferInstanceAs (Decidable (_ ∧ _))

/-- The word with another opcode. -/
def setOpcode (op : BitVec 6) (w : Word) : Word := op ++ w.extractLsb' 0 26

section Mask

variable {w : Word}

/-- A word by the fields that the mask has bits in. -/
theorem fields_eq (w : Word) : w = opcode w ++ w.extractLsb' 24 2 ++ w.extractLsb' 11 13 ++ xo w ++ rc w := by
  simp only [opcode, xo, rc]
  rw [BitVec.extractLsb'_append_extractLsb'_eq_extractLsb' (by decide),
    BitVec.extractLsb'_append_extractLsb'_eq_extractLsb' (by decide),
    BitVec.extractLsb'_append_extractLsb'_eq_extractLsb' (by decide),
    BitVec.extractLsb'_append_extractLsb'_eq_extractLsb' (by decide)]
  simp

theorem masked_eq (w : Word) : w &&& 0xFF0007FF = opcode w ++ w.extractLsb' 24 2 ++ 0#13 ++ xo w ++ rc w := by
  have hmask : (0xFF0007FF : Word) =
      BitVec.allOnes 6 ++ BitVec.allOnes 2 ++ 0#13 ++ BitVec.allOnes 10 ++ BitVec.allOnes 1 := rfl
  conv_lhs => rw [fields_eq w, hmask]
  rw [BitVec.and_append, BitVec.and_append, BitVec.and_append, BitVec.and_append]
  simp only [BitVec.and_allOnes, BitVec.and_zero]

theorem append_eq_iff {m n : ℕ} {a c : BitVec m} {b d : BitVec n} : a ++ b = c ++ d ↔ a = c ∧ b = d := by
  constructor
  · intro h
    have hleft := congrArg (·.extractLsb' n m) h
    have hright := congrArg (·.extractLsb' 0 n) h
    simp only [BitVec.extractLsb'_append_eq_left] at hleft
    simp only [BitVec.extractLsb'_append_eq_right] at hright
    exact ⟨hleft, hright⟩
  · rintro ⟨rfl, rfl⟩
    rfl

/-- The loop looks for every form whose RT is below 8. -/
theorem isDcbz_iff_form : isDcbz w = true ↔ IsBlockZero w ∧ rt w < 8 := by
  have hconst : (0x7C0007EC : Word) = 31#6 ++ 0#2 ++ 0#13 ++ 1014#10 ++ 0#1 := rfl
  have hrt : w.extractLsb' 24 2 = 0#2 ↔ rt w < 8 := by
    rw [← BitVec.toNat_inj, BitVec.lt_def, rt, BitVec.extractLsb'_toNat, BitVec.extractLsb'_toNat,
      Nat.shiftRight_eq_div_pow, Nat.shiftRight_eq_div_pow, show (0#2).toNat = 0 from rfl,
      show (8 : BitVec 5).toNat = 8 from rfl]
    omega
  rw [isDcbz_iff, masked_eq, hconst, append_eq_iff, append_eq_iff, append_eq_iff, append_eq_iff, hrt, IsBlockZero]
  tauto

/-- Patching clears the opcode and keeps the other fields. -/
theorem patched_eq (w : Word) : patched w = setOpcode 0 w := by
  have hmask : (0x03FFFFFF : Word) = 0#6 ++ BitVec.allOnes 26 := rfl
  have hsplit : w = opcode w ++ w.extractLsb' 0 26 := by
    rw [opcode, BitVec.extractLsb'_append_extractLsb'_eq_extractLsb' (by decide)]
    simp
  rw [patched, hmask]
  conv_lhs => rw [hsplit]
  rw [BitVec.and_append, BitVec.and_allOnes, BitVec.and_zero]
  rfl

theorem setOpcode_ne {op : BitVec 6} (h : opcode w ≠ op) : setOpcode op w ≠ w := by
  intro he
  apply h
  rw [← he, opcode, setOpcode]
  exact BitVec.extractLsb'_append_eq_left

end Mask

/-! ## Pages -/

section Pages

variable {kernelPmap : Word} {c : PmapEnter} {mem : Memory}

/-- Over the page, `dcbz` loses its opcode and nothing else changes. -/
def PatchesDcbz (kernelPmap : Word) (c : PmapEnter) (mem : Memory) : Prop :=
  ∀ a, pageOf a = c.pa.toNat → (wrapPmapEnter kernelPmap c mem).1 a =
    if IsBlockZero (mem a) ∧ rt (mem a) = 0 then setOpcode 0 (mem a) else mem a

/-- A form of the instruction that the mask takes for `dcbz`; `dcbz128` has RT 1. -/
def LooksLikeDcbz (w : Word) : Prop := IsBlockZero w ∧ rt w ≠ 0 ∧ rt w < 8

/-- **A page is patched as it should exactly if it holds no other form that the mask takes for `dcbz`.** -/
theorem dcbz_patched_iff (hpa : c.pa.toNat < 2 ^ 20) (hc : c.patches kernelPmap = true) :
    PatchesDcbz kernelPmap c mem ↔ ∀ a, pageOf a = c.pa.toNat → ¬ LooksLikeDcbz (mem a) := by
  refine forall_congr' fun a => imp_congr_right fun ha => ?_
  rw [wrap_mem hpa, if_pos ⟨hc, ha⟩, patchWord, if_congr isDcbz_iff_form rfl rfl, patched_eq]
  constructor
  · rintro h ⟨hform, hne, hlt⟩
    rw [if_pos ⟨hform, hlt⟩, if_neg fun hn => hne hn.2] at h
    exact setOpcode_ne (by rw [hform.1]; decide) h
  · intro h
    by_cases hform : IsBlockZero (mem a) ∧ rt (mem a) < 8
    · have hzero : rt (mem a) = 0 := by
        by_contra hne
        exact h ⟨hform.1, hne, hform.2⟩
      rw [if_pos hform, if_pos ⟨hform.1, hzero⟩]
    · rw [if_neg hform, if_neg fun hn => hform ⟨hn.1, by rw [hn.2]; decide⟩]

/-- `dcbz r0, r3` and `nop`. -/
theorem dcbz_patched_page : PatchesDcbz 1 ⟨2, 0x1000, 5, 7, 0, 0⟩ fun a =>
    if a.toNat % 2 = 0 then 0x7C001FEC else 0x60000000 := by
  refine (dcbz_patched_iff (by decide) (by decide)).mpr fun a _ => ?_
  rintro ⟨hform, hne, -⟩
  split at hne
  · exact hne rfl
  · rename_i hodd
    rw [if_neg hodd] at hform
    exact absurd hform (by decide)

/-- A page of `dcbz128` is patched away. -/
theorem dcbz128_patched : (wrapPmapEnter 1 ⟨2, 0x1000, 5, 7, 0, 0⟩ fun _ => 0x7C2007EC).1 0x1400 = 0x002007EC ∧
    ¬ PatchesDcbz 1 ⟨2, 0x1000, 5, 7, 0, 0⟩ fun _ => 0x7C2007EC := by
  constructor
  · rw [wrap_mem (by decide)]
    decide
  · intro h
    have hword := h 0x1400 (by decide)
    rw [wrap_mem (by decide)] at hword
    revert hword
    decide

end Pages

end Osx360.Platform
