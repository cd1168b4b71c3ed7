import Osx360.Lib.Doubleword

/-!
# Registers of 64 bits

`ReadFullBigInt64` and `WriteFullBigInt64` from `XenonCommon.hpp`: inline assembly that makes one access of 64 bits in
a kernel of 32 bits, where variables are the low halves of registers whose high halves may hold anything. The compiler
chooses the registers under the constraints of the operands.

For every choice that it has, a write is one store of the whole value and a read one load, at the given address, and a
read returns what the device answered (`fullBigInt64_correct`).
-/

set_option autoImplicit false

namespace Osx360.Common

open Osx360.Lib Osx360.Lib.PowerPC

/-- The register holds a variable of 32 bits. -/
def Holds (r : Regs (List BusAccess)) (i : BitVec 5) (value : Word) : Prop := (r.gpr i).setWidth 32 = value

/-- `addr` of both functions. -/
def fullAddress (base byteOffset : Word) : Word := base + byteOffset

/-! ## Writing -/

/-- The registers of `WriteFullBigInt64`: `b` excludes r0, and `&` the inputs, which may share registers. -/
structure WriteRegs where
  tmp : BitVec 5
  hi : BitVec 5
  lo : BitVec 5
  addr : BitVec 5
  base : addr ≠ 0
  early : tmp ≠ hi ∧ tmp ≠ lo ∧ tmp ≠ addr

def writeFullBigInt64 (a : WriteRegs) : List Instr :=
  [.rldicl a.tmp a.lo 0 32, .rldimi a.tmp a.hi 32 0, .std a.tmp 0 a.addr, .eieio]

/-- The inputs have been loaded. -/
structure WriteRegs.Loaded (a : WriteRegs) (r : Regs (List BusAccess)) (address : Word) (data : Doubleword) : Prop where
  hi : Holds r a.hi ((data >>> 32).setWidth 32)
  lo : Holds r a.lo (data.setWidth 32)
  addr : Holds r a.addr address

/-! ## Reading -/

/-- The registers of `ReadFullBigInt64`: outputs differ from each other, but either may be that of the address. -/
structure ReadRegs where
  hi : BitVec 5
  lo : BitVec 5
  addr : BitVec 5
  base : addr ≠ 0
  outputs : hi ≠ lo

def readFullBigInt64 (a : ReadRegs) : List Instr := [.ld a.lo 0 a.addr, .eieio, .srdi a.hi a.lo 32]

/-- What the function returns. -/
def ReadRegs.result (a : ReadRegs) (r : Regs (List BusAccess)) : Doubleword :=
  ((r.gpr a.hi).setWidth 32).setWidth 64 <<< 32 ||| ((r.gpr a.lo).setWidth 32).setWidth 64

/-! ## Correctness -/

section Halves

variable {x : Doubleword}

theorem append_halves : (x >>> 32).setWidth 32 ++ x.setWidth 32 = x := by
  refine BitVec.eq_of_getLsbD_eq fun i hi => ?_
  rw [BitVec.getLsbD_append, BitVec.getLsbD_setWidth, BitVec.getLsbD_setWidth, BitVec.getLsbD_ushiftRight]
  by_cases hlow : i < 32
  · simp [hlow]
  · have hin : i - 32 < 32 := by omega
    have hsum : 32 + (i - 32) = i := by omega
    simp [hlow, hin, hsum]

theorem or_halves : ((x >>> 32).setWidth 32).setWidth 64 <<< 32 ||| (x.setWidth 32).setWidth 64 = x := by
  refine BitVec.eq_of_getLsbD_eq fun i hi => ?_
  simp only [BitVec.getLsbD_or, BitVec.getLsbD_shiftLeft, BitVec.getLsbD_setWidth, BitVec.getLsbD_ushiftRight]
  by_cases hlow : i < 32
  · simp [hlow, hi]
  · have hin : i - 32 < 32 := by omega
    have hin' : i - 32 < 64 := by omega
    have hsum : 32 + (i - 32) = i := by omega
    simp [hlow, hin, hin', hsum, hi]

end Halves

section Correctness

variable {device : List BusAccess → Word → Doubleword} {r : Regs (List BusAccess)} {address : Word}

theorem effectiveAddress_base {i : BitVec 5} (hi : i ≠ 0) (h : Holds r i address) :
    effectiveAddress r 0 i = address := by
  rw [effectiveAddress, if_neg hi, h]
  exact BitVec.add_zero _

/-- The store sees the value put together in `tmp`. -/
theorem writeFullBigInt64_rest (a : WriteRegs) {data : Doubleword} (h : a.Loaded r address data) :
    (run device (writeFullBigInt64 a) r).rest = r.rest ++ [.store address data, .barrier] := by
  obtain ⟨hhi, hlo, haddr⟩ := a.early
  have hlow : (rldicl (r.gpr a.lo) 0 32).setWidth 32 = data.setWidth 32 := by
    rw [rldicl_zero, BitVec.setWidth_setWidth_of_le _ (by omega), BitVec.setWidth_eq]
    exact h.lo
  have hvalue : rldimi (rldicl (r.gpr a.lo) 0 32) (r.gpr a.hi) 32 0 = data := by
    rw [rldimi_zero, hlow, h.hi, append_halves]
  have haddress : Holds ((r.setGpr a.tmp (rldicl (r.gpr a.lo) 0 32)).setGpr a.tmp data) a.addr address := by
    rw [Holds, setGpr_gpr_ne _ haddr.symm, setGpr_gpr_ne _ haddr.symm]
    exact h.addr
  simp only [writeFullBigInt64, run, List.foldl_cons, List.foldl_nil, Instr.exec, Regs.setGpr_self,
    setGpr_gpr_ne _ hhi.symm, hvalue, effectiveAddress_base a.base haddress]
  simp [Regs.setGpr]

theorem readFullBigInt64_rest (a : ReadRegs) (h : Holds r a.addr address) :
    (run device (readFullBigInt64 a) r).rest = r.rest ++ [.load address (device r.rest address), .barrier] ∧
      a.result (run device (readFullBigInt64 a) r) = device r.rest address := by
  have haddress := effectiveAddress_base a.base h
  have hrun : run device (readFullBigInt64 a) r =
      { (r.setGpr a.lo (device r.rest address)).setGpr a.hi (device r.rest address >>> 32) with
        rest := r.rest ++ [.load address (device r.rest address), .barrier] } := by
    simp only [readFullBigInt64, run, List.foldl_cons, List.foldl_nil, Instr.srdi, Instr.exec, haddress]
    rw [rldicl_shift (by omega) (by omega)]
    simp [Regs.setGpr]
  rw [hrun]
  refine ⟨rfl, ?_⟩
  simp only [ReadRegs.result, Regs.setGpr_self, setGpr_gpr_ne _ a.outputs.symm]
  exact or_halves

/-- **One access, of the whole value.** Registers that are no outputs keep what they hold. -/
theorem fullBigInt64_correct {base byteOffset : Word} :
    (∀ (a : WriteRegs) (data : Doubleword), a.Loaded r (fullAddress base byteOffset) data →
      (run device (writeFullBigInt64 a) r).rest = r.rest ++ [.store (fullAddress base byteOffset) data, .barrier] ∧
        ∀ i, i ≠ a.tmp → (run device (writeFullBigInt64 a) r).gpr i = r.gpr i) ∧
    (∀ a : ReadRegs, Holds r a.addr (fullAddress base byteOffset) →
      (run device (readFullBigInt64 a) r).rest =
          r.rest ++ [.load (fullAddress base byteOffset) (device r.rest (fullAddress base byteOffset)), .barrier] ∧
        a.result (run device (readFullBigInt64 a) r) = device r.rest (fullAddress base byteOffset) ∧
        ∀ i, i ≠ a.hi → i ≠ a.lo → (run device (readFullBigInt64 a) r).gpr i = r.gpr i) := by
  refine ⟨fun a data h => ⟨writeFullBigInt64_rest a h, fun i hi => run_gpr ?_⟩, fun a h =>
    ⟨(readFullBigInt64_rest a h).1, (readFullBigInt64_rest a h).2, fun i hhi hlo => run_gpr ?_⟩⟩
  · simp [writeFullBigInt64, Instr.target, Ne.symm hi]
  · simp [readFullBigInt64, Instr.srdi, Instr.target, Ne.symm hhi, Ne.symm hlo]

/-- The end of an interrupt, and a read of the controller, with garbage in the high halves; the halves of the value
share a register where it is written, and the address one with the high half where it is read. -/
theorem fullBigInt64_correct_garbage :
    (run (fun _ _ => 0) (writeFullBigInt64 ⟨9, 3, 3, 5, by decide, by decide⟩)
      ⟨fun i => if i = 5 then 0xDEADBEEF_E0050060 else 0xDEADBEEF_00000000, 0, []⟩).rest =
        [.store (fullAddress 0xE0050000 0x60) 0, .barrier] ∧
    (⟨5, 3, 5, by decide, by decide⟩ : ReadRegs).result (run (fun _ _ => 0x01234567_89ABCDEF)
      (readFullBigInt64 ⟨5, 3, 5, by decide, by decide⟩)
      ⟨fun i => if i = 5 then 0xDEADBEEF_E0050060 else 0xDEADBEEF_00000000, 0, []⟩) = 0x01234567_89ABCDEF :=
  ⟨(fullBigInt64_correct.1 _ 0 ⟨by simp [Holds], by simp [Holds], by simp [Holds, fullAddress]⟩).1,
    (fullBigInt64_correct.2 _ (by simp [Holds, fullAddress] : Holds _ _ (fullAddress 0xE0050000 0x60))).2.1⟩

end Correctness

end Osx360.Common
