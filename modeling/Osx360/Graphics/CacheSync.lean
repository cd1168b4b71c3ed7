import Mathlib.Data.List.Nodup
import Osx360.Graphics.CommandRing
import Osx360.Lib.CacheLines

/-!
# Data for the GPU

`syncData` of `XenosController`, which stores cache lines back to memory, as a loop with fuel. The loop takes a round
for each line and ends (`syncLoop_eq`); the lines are those of the data, each once (`syncData_lines`), so the GPU reads
there what the driver wrote (`syncData_memory`), and in the ring after every `syncRingBuffer` (`syncRing_memory`).
-/

set_option autoImplicit false

namespace Osx360.Graphics

open Osx360.Lib

universe u

def cachelineSize : Word := 128

/-- The instructions on the cache. -/
inductive CacheOp
  | dcbst (addr : Word)
  | sync
  deriving DecidableEq

/-- `while (n--)`. -/
def syncLoop : ℕ → Word → Word → Option (List CacheOp)
  | 0, _, _ => none
  | fuel + 1, n, base =>
    if n = 0 then some []
    else (syncLoop fuel (n - 1) (base + cachelineSize)).map (.dcbst base :: ·)

def syncData (fuel : ℕ) (data length : Word) : Option (List CacheOp) :=
  if length = 0 then some []
  else
    let a := data
    let base := a &&& ~~~(cachelineSize - 1)
    let span := length + (a - base)
    let n := (span + cachelineSize - 1) / cachelineSize
    (syncLoop fuel n base).map (· ++ [.sync])

/-- `syncRingBuffer`, before it publishes the write pointer. -/
def syncRing (fuel : ℕ) (ringBuffer : Word) : Option (List CacheOp) :=
  syncData fuel ringBuffer (xenosRingbufferLength * 4)

/-- The line that an instruction stores back, by its address. -/
def CacheOp.storedLine : CacheOp → Option Word
  | .dcbst addr => some (addr &&& ~~~(cachelineSize - 1))
  | .sync => none

def storedLines (ops : List CacheOp) : List Word := ops.filterMap CacheOp.storedLine

/-- The effect of an instruction; `sync` waits for the others. -/
def CacheOp.exec {β : Type u} (m : CachedMemory β) : CacheOp → CachedMemory β
  | .dcbst addr => writeBack 128 m (addr.toNat / 128)
  | .sync => m

/-- The address of line `k`. -/
def lineAddr (k : ℕ) : Word := BitVec.ofNat 32 (k * 128)

/-- What the call does as long as no sum wraps: the lines of the data in order. -/
def syncOps (data length : Word) : List CacheOp :=
  if length = 0 then []
  else (linesOf 128 data.toNat length.toNat).map (fun k => .dcbst (lineAddr k)) ++ [.sync]

/-! ## The loop -/

section Loop

variable {fuel k : ℕ} {n : Word}

theorem lineAddr_succ (k : ℕ) : lineAddr k + cachelineSize = lineAddr (k + 1) := by
  rw [lineAddr, lineAddr, Nat.succ_mul, BitVec.ofNat_add]
  rfl

theorem line_lt (a : Word) : a.toNat / 128 < 2 ^ 25 := Nat.div_lt_of_lt_mul a.isLt

theorem toNat_lineAddr (hk : k < 2 ^ 25) : (lineAddr k).toNat = k * 128 := by
  rw [lineAddr, BitVec.toNat_ofNat]
  omega

/-- The alignment of an address. -/
theorem and_not_cachelineSize (a : Word) : a &&& ~~~(cachelineSize - 1) = lineAddr (a.toNat / 128) := by
  rw [← BitVec.toNat_inj, toNat_lineAddr (line_lt a)]
  exact toNat_and_not_mask (m := 127) (n := 7) rfl (by decide)

/-- **The loop ends** after a round for each line. -/
theorem syncLoop_eq (hf : n.toNat < fuel) (k : ℕ) :
    syncLoop fuel n (lineAddr k) = some ((List.range' k n.toNat).map fun j => .dcbst (lineAddr j)) := by
  induction fuel generalizing n k with
  | zero => omega
  | succ fuel ih =>
    by_cases hn : n = 0
    · subst hn
      rfl
    · have hpos : 0 < n.toNat := Nat.pos_of_ne_zero fun h => hn (BitVec.toNat_inj.mp h)
      have hpred : n.toNat = (n - 1).toNat + 1 := by
        have hone : (1 : Word) ≤ n := BitVec.le_def.mpr hpos
        rw [BitVec.toNat_sub_of_le hone, show (1 : Word).toNat = 1 from rfl]
        omega
      rw [syncLoop, if_neg hn, lineAddr_succ, ih (by omega), hpred]
      rfl

end Loop

/-! ## The lines -/

section Lines

variable {fuel : ℕ} {data length line : Word}

theorem toNat_offset : (data - lineAddr (data.toNat / 128)).toNat = data.toNat % 128 := by
  have hle : lineAddr (data.toNat / 128) ≤ data := by
    rw [BitVec.le_def, toNat_lineAddr (line_lt data)]
    exact Nat.div_mul_le_self _ _
  rw [BitVec.toNat_sub_of_le hle, toNat_lineAddr (line_lt data)]
  omega

/-- The number of lines, as long as no sum wraps. -/
theorem toNat_lines (h : data.toNat + length.toNat + 127 ≤ 2 ^ 32 - 1) :
    ((length + (data - lineAddr (data.toNat / 128)) + cachelineSize - 1) / cachelineSize).toNat =
      (length.toNat + data.toNat % 128 + 128 - 1) / 128 := by
  have hspan : (length + (data - lineAddr (data.toNat / 128))).toNat = length.toNat + data.toNat % 128 := by
    rw [BitVec.toNat_add, toNat_offset]
    omega
  have hround : (length + (data - lineAddr (data.toNat / 128)) + cachelineSize - 1).toNat =
      length.toNat + data.toNat % 128 + 128 - 1 := by
    rw [BitVec.toNat_sub, BitVec.toNat_add, hspan, show cachelineSize.toNat = 128 from rfl,
      show (1 : Word).toNat = 1 from rfl]
    omega
  rw [BitVec.toNat_udiv, hround]
  rfl

theorem syncData_eq (h : data.toNat + length.toNat + 127 ≤ 2 ^ 32 - 1) (hf : 2 ^ 25 ≤ fuel) :
    syncData fuel data length = some (syncOps data length) := by
  have hlines := toNat_lines h
  simp only [syncData, syncOps, and_not_cachelineSize]
  split
  · rfl
  · next hl =>
    have hpos : length.toNat ≠ 0 := fun h0 => hl (BitVec.toNat_inj.mp h0)
    rw [syncLoop_eq (by omega), hlines, linesOf, if_neg hpos]
    rfl

/-- The loop ends for every argument. -/
theorem exists_syncData (hf : 2 ^ 25 ≤ fuel) (data length : Word) : ∃ ops, syncData fuel data length = some ops := by
  simp only [syncData, and_not_cachelineSize]
  split
  · exact ⟨[], rfl⟩
  · rw [syncLoop_eq]
    · exact ⟨_, rfl⟩
    · rw [BitVec.toNat_udiv]
      exact Nat.lt_of_lt_of_le (Nat.div_lt_of_lt_mul (BitVec.isLt _)) hf

/-- The lines of the data are lines of the address space. -/
theorem lt_of_mem_linesOf (h : data.toNat + length.toNat + 127 ≤ 2 ^ 32 - 1) {k : ℕ}
    (hk : k ∈ linesOf 128 data.toNat length.toNat) : k < 2 ^ 25 := by
  obtain ⟨x, -, hx, rfl⟩ := (mem_linesOf (by decide)).mp hk
  exact Nat.div_lt_of_lt_mul (by omega)

theorem storedLine_dcbst {k : ℕ} (hk : k < 2 ^ 25) : (CacheOp.dcbst (lineAddr k)).storedLine = some (lineAddr k) := by
  rw [CacheOp.storedLine, and_not_cachelineSize, toNat_lineAddr hk, Nat.mul_div_cancel k (by decide)]

theorem storedLines_map {ks : List ℕ} (h : ∀ k ∈ ks, k < 2 ^ 25) :
    storedLines (ks.map (fun k => .dcbst (lineAddr k)) ++ [.sync]) = ks.map lineAddr := by
  induction ks with
  | nil => rfl
  | cons k ks ih =>
    rw [List.forall_mem_cons] at h
    rw [List.map_cons, List.cons_append, storedLines, List.filterMap_cons_some (storedLine_dcbst h.1)]
    exact congrArg (lineAddr k :: ·) (ih h.2)

/-- The lines that are stored back are those of the data. -/
theorem storedLines_syncData (h : data.toNat + length.toNat + 127 ≤ 2 ^ 32 - 1) :
    storedLines (syncOps data length) = (linesOf 128 data.toNat length.toNat).map lineAddr := by
  unfold syncOps
  split
  · next hl =>
    subst hl
    rfl
  · exact storedLines_map fun k hk => lt_of_mem_linesOf h hk

theorem nodup_lineAddr (h : data.toNat + length.toNat + 127 ≤ 2 ^ 32 - 1) :
    ((linesOf 128 data.toNat length.toNat).map lineAddr).Nodup := by
  refine List.Nodup.map_on (fun j hj k hk he => ?_) (nodup_linesOf _ _ _)
  have hnat := congrArg BitVec.toNat he
  rw [toNat_lineAddr (lt_of_mem_linesOf h hj), toNat_lineAddr (lt_of_mem_linesOf h hk)] at hnat
  omega

theorem mem_lineAddr (h : data.toNat + length.toNat + 127 ≤ 2 ^ 32 - 1) :
    line ∈ (linesOf 128 data.toNat length.toNat).map lineAddr ↔ line.toNat % 128 = 0 ∧
      ∃ x, data.toNat ≤ x ∧ x < data.toNat + length.toNat ∧ line.toNat ≤ x ∧ x < line.toNat + 128 := by
  rw [List.mem_map]
  constructor
  · rintro ⟨k, hk, rfl⟩
    rw [toNat_lineAddr (lt_of_mem_linesOf h hk)]
    obtain ⟨x, hdata, hx, rfl⟩ := (mem_linesOf (by decide)).mp hk
    exact ⟨Nat.mul_mod_left _ _, x, hdata, hx, Nat.div_mul_le_self x 128, Nat.lt_div_mul_add (by decide)⟩
  · rintro ⟨haligned, x, hdata, hx, hline⟩
    refine ⟨line.toNat / 128, (mem_linesOf (by decide)).mpr ⟨x, hdata, hx, ?_⟩, ?_⟩
    · exact (div_eq_div_iff_of_aligned (by decide) haligned).mpr hline
    · rw [← BitVec.toNat_inj, toNat_lineAddr (line_lt line)]
      omega

/-- **The lines stored back** are the aligned lines that have an address of the data, each once, and the loop ends. -/
theorem syncData_lines (h : data.toNat + length.toNat + 127 ≤ 2 ^ 32 - 1) :
    ∃ ops, (∀ fuel, 2 ^ 25 ≤ fuel → syncData fuel data length = some ops) ∧ (storedLines ops).Nodup ∧
      (∀ line, line ∈ storedLines ops ↔ line.toNat % 128 = 0 ∧
        ∃ x, data.toNat ≤ x ∧ x < data.toNat + length.toNat ∧ line.toNat ≤ x ∧ x < line.toNat + 128) ∧
      (length = 0 → ops = []) := by
  refine ⟨syncOps data length, fun fuel hf => syncData_eq h hf, ?_, fun line => ?_, fun hl => if_pos hl⟩
  · rw [storedLines_syncData h]
    exact nodup_lineAddr h
  · rw [storedLines_syncData h]
    exact mem_lineAddr h

/-- 32 bytes across the end of a line. -/
theorem syncData_lines_across :
    ∃ ops, (∀ fuel, 2 ^ 25 ≤ fuel → syncData fuel 0x1070 0x20 = some ops) ∧ (storedLines ops).Nodup ∧
      (∀ line, line ∈ storedLines ops ↔ line.toNat % 128 = 0 ∧
        ∃ x, 0x1070 ≤ x ∧ x < 0x1070 + 0x20 ∧ line.toNat ≤ x ∧ x < line.toNat + 128) ∧
      ((0x20 : Word) = 0 → ops = []) :=
  @syncData_lines 0x1070 0x20 (by decide)

end Lines

/-! ## The memory -/

section Memory

variable {β : Type u} {fuel : ℕ} {data length : Word}

theorem foldl_exec (m : CachedMemory β) {ks : List ℕ} (h : ∀ k ∈ ks, k < 2 ^ 25) :
    (ks.map (fun k => CacheOp.dcbst (lineAddr k)) ++ [CacheOp.sync]).foldl CacheOp.exec m =
      ks.foldl (writeBack 128) m := by
  rw [List.foldl_append, List.foldl_map, List.foldl_cons, List.foldl_nil, CacheOp.exec]
  refine List.foldl_ext _ _ _ fun m k hk => ?_
  rw [CacheOp.exec, toNat_lineAddr (h k hk), Nat.mul_div_cancel k (by decide)]

/-- **The data in memory**: after the call the GPU reads there what the driver wrote. -/
theorem syncData_memory (h : data.toNat + length.toNat + 127 ≤ 2 ^ 32 - 1) (hf : 2 ^ 25 ≤ fuel) (m : CachedMemory β) :
    ∃ ops, syncData fuel data length = some ops ∧ ∀ x, data.toNat ≤ x → x < data.toNat + length.toNat →
      (ops.foldl CacheOp.exec m).memory x = m.cache x := by
  refine ⟨syncOps data length, syncData_eq h hf, fun x hdata hx => ?_⟩
  have hl : length ≠ 0 := by
    rintro rfl
    exact absurd hx (Nat.not_lt_of_le hdata)
  rw [syncOps, if_neg hl, foldl_exec m fun k hk => lt_of_mem_linesOf h hk]
  exact memory_linesOf (by decide) m hdata hx

/-- **The ring in memory**: when the write pointer is published, the GPU reads in every word of the ring what was
written there. -/
theorem syncRing_memory {ringBuffer : Word} (h : ringBuffer.toNat + 0x8000 + 127 ≤ 2 ^ 32 - 1) (hf : 2 ^ 25 ≤ fuel)
    (m : CachedMemory β) : ∃ ops, syncRing fuel ringBuffer = some ops ∧
      ∀ i < xenosRingbufferLength.toNat, ∀ j < 4,
        (ops.foldl CacheOp.exec m).memory (ringBuffer.toNat + i * 4 + j) = m.cache (ringBuffer.toNat + i * 4 + j) := by
  have hlength : (xenosRingbufferLength * 4).toNat = 0x8000 := rfl
  have hwords : xenosRingbufferLength.toNat = 0x2000 := rfl
  obtain ⟨ops, hops, hmemory⟩ := syncData_memory (hlength.symm ▸ h) hf m
  refine ⟨ops, hops, fun i hi j hj => hmemory _ ?_ ?_⟩
  · omega
  · omega

end Memory

end Osx360.Graphics
