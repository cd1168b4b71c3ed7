import Osx360.Lib.PowerPC

/-!
# Doublewords of PowerPC

The rotate instructions and the loads and stores of 64 bits, for code that runs in 32-bit mode: registers have 64 bits,
of which such code otherwise sees the low half. What is loaded and stored goes over a bus to a device that answers as
it likes.

- a rotated doubleword under a mask is an extension of its low bits (`rldicl_zero`), a shift (`rldicl_shift`), or the
  low bits of one doubleword below those of another (`rldimi_zero`);
- instructions write no register but the one that they name (`run_gpr`).
-/

set_option autoImplicit false

namespace Osx360.Lib.PowerPC

abbrev Doubleword := BitVec 64

/-! ## Rotations -/

/-- Ones from bit `mb` to bit `me`, bit 0 being the most significant. -/
def mask (mb me : ℕ) : Doubleword :=
  if mb ≤ me then (BitVec.allOnes 64 >>> mb) &&& (BitVec.allOnes 64 <<< (63 - me))
  else (BitVec.allOnes 64 >>> mb) ||| (BitVec.allOnes 64 <<< (63 - me))

def rldicl (x : Doubleword) (sh mb : ℕ) : Doubleword := x.rotateLeft sh &&& mask mb 63

/-- `y` is what the register holds before. -/
def rldimi (y x : Doubleword) (sh mb : ℕ) : Doubleword :=
  (x.rotateLeft sh &&& mask mb (63 - sh)) ||| (y &&& ~~~mask mb (63 - sh))

section Rotations

variable {x y : Doubleword} {i mb me sh : ℕ}

theorem getLsbD_mask (h : mb ≤ me) (hme : me ≤ 63) :
    (mask mb me).getLsbD i = decide (63 - me ≤ i ∧ i ≤ 63 - mb ∧ i < 64) := by
  rw [mask, if_pos h]
  simp only [BitVec.getLsbD_and, BitVec.getLsbD_ushiftRight, BitVec.getLsbD_shiftLeft, BitVec.getLsbD_allOnes]
  grind

/-- Clearing the high half. -/
theorem rldicl_zero : rldicl x 0 32 = (x.setWidth 32).setWidth 64 := by
  refine BitVec.eq_of_getLsbD_eq fun i hi => ?_
  rw [rldicl, BitVec.getLsbD_and, getLsbD_mask (by omega) (Nat.le_refl _), BitVec.getLsbD_rotateLeft]
  simp only [BitVec.getLsbD_setWidth]
  grind

/-- `srdi`. -/
theorem rldicl_shift (h0 : 0 < sh) (h : sh < 64) : rldicl x (64 - sh) sh = x >>> sh := by
  refine BitVec.eq_of_getLsbD_eq fun i hi => ?_
  rw [rldicl, BitVec.getLsbD_and, getLsbD_mask (by omega) (Nat.le_refl _), BitVec.getLsbD_rotateLeft,
    BitVec.getLsbD_ushiftRight, Nat.mod_eq_of_lt (by omega)]
  by_cases hlow : i < 64 - sh
  · have hin : 64 - (64 - sh) + i = sh + i := by omega
    have hmask : 63 - 63 ≤ i ∧ i ≤ 63 - sh ∧ i < 64 := by omega
    simp [hlow, hin, hmask]
  · have hout : ¬ i ≤ 63 - sh := by omega
    have hge : 64 ≤ sh + i := by omega
    simp [hout, BitVec.getLsbD_of_ge x _ hge]

/-- Bits below the insertion keep their place. -/
theorem getLsbD_rldimi_zero (h : sh < 64) (hi : i < 64) :
    (rldimi y x sh 0).getLsbD i = if i < sh then y.getLsbD i else x.getLsbD (i - sh) := by
  rw [rldimi, BitVec.getLsbD_or, BitVec.getLsbD_and, BitVec.getLsbD_and, BitVec.getLsbD_not,
    getLsbD_mask (Nat.zero_le _) (by omega), BitVec.getLsbD_rotateLeft, Nat.mod_eq_of_lt h]
  by_cases hlow : i < sh
  · have hmask : ¬ 63 - (63 - sh) ≤ i := by omega
    simp [hlow, hmask, hi]
  · have hmask : 63 - (63 - sh) ≤ i ∧ i ≤ 63 := by omega
    simp [hlow, hmask, hi]

/-- The low half of one doubleword above that of another. -/
theorem rldimi_zero : rldimi y x 32 0 = x.setWidth 32 ++ y.setWidth 32 := by
  refine BitVec.eq_of_getLsbD_eq fun i hi => ?_
  rw [getLsbD_rldimi_zero (by omega) hi, BitVec.getLsbD_append, BitVec.getLsbD_setWidth, BitVec.getLsbD_setWidth]
  by_cases hlow : i < 32
  · simp [hlow]
  · have hin : i - 32 < 32 := by omega
    simp [hlow, hin]

end Rotations

/-! ## Instructions -/

/-- An access to a device, with the doubleword that went over the bus. -/
inductive BusAccess
  | load (address : Word) (data : Doubleword)
  | store (address : Word) (data : Doubleword)
  | barrier
  deriving DecidableEq

/-- `srdi` is the extended mnemonic of a `rldicl`. -/
inductive Instr
  | rldicl (ra rs : BitVec 5) (sh mb : ℕ)
  | rldimi (ra rs : BitVec 5) (sh mb : ℕ)
  | ld (rt : BitVec 5) (ds : Word) (ra : BitVec 5)
  | std (rs : BitVec 5) (ds : Word) (ra : BitVec 5)
  | eieio

def Instr.srdi (ra rs : BitVec 5) (n : ℕ) : Instr := .rldicl ra rs (64 - n) n

/-- The register that an instruction writes. -/
def Instr.target : Instr → Option (BitVec 5)
  | .rldicl ra _ _ _ | .rldimi ra _ _ _ => some ra
  | .ld rt _ _ => some rt
  | .std _ _ _ | .eieio => none

/-- The address of a load or store: r0 as base stands for 0, and in 32-bit mode the high half does not count. -/
def effectiveAddress (r : Regs (List BusAccess)) (ds : Word) (ra : BitVec 5) : Word :=
  (if ra = 0 then 0 else (r.gpr ra).setWidth 32) + ds

/-- `device` answers a load, knowing all accesses before it. -/
def Instr.exec (device : List BusAccess → Word → Doubleword) (r : Regs (List BusAccess)) :
    Instr → Regs (List BusAccess)
  | .rldicl ra rs sh mb => r.setGpr ra (PowerPC.rldicl (r.gpr rs) sh mb)
  | .rldimi ra rs sh mb => r.setGpr ra (PowerPC.rldimi (r.gpr ra) (r.gpr rs) sh mb)
  | .ld rt ds ra =>
    let data := device r.rest (effectiveAddress r ds ra)
    { r.setGpr rt data with rest := r.rest ++ [.load (effectiveAddress r ds ra) data] }
  | .std rs ds ra => { r with rest := r.rest ++ [.store (effectiveAddress r ds ra) (r.gpr rs)] }
  | .eieio => { r with rest := r.rest ++ [.barrier] }

def run (device : List BusAccess → Word → Doubleword) (code : List Instr) (r : Regs (List BusAccess)) :
    Regs (List BusAccess) := code.foldl (Instr.exec device) r

section Frame

variable {device : List BusAccess → Word → Doubleword} {r : Regs (List BusAccess)} {i : BitVec 5}

theorem setGpr_gpr_ne {j : BitVec 5} (x : Doubleword) (h : i ≠ j) : (r.setGpr j x).gpr i = r.gpr i :=
  Function.update_of_ne h _ _

theorem exec_gpr {instr : Instr} (h : instr.target ≠ some i) : (instr.exec device r).gpr i = r.gpr i := by
  have hne : ∀ {j}, some j ≠ some i → i ≠ j := fun hj heq => hj (heq ▸ rfl)
  cases instr with
  | rldicl | rldimi | ld => exact setGpr_gpr_ne _ (hne h)
  | std | eieio => rfl

/-- **Frame.** Code leaves the registers alone that it does not name as targets. -/
theorem run_gpr {code : List Instr} (h : ∀ instr ∈ code, instr.target ≠ some i) :
    (run device code r).gpr i = r.gpr i := by
  induction code generalizing r with
  | nil => rfl
  | cons instr code ih =>
    rw [List.forall_mem_cons] at h
    exact (ih h.2).trans (exec_gpr h.1)

end Frame

end Osx360.Lib.PowerPC
