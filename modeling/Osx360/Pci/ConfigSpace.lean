import Osx360.Lib.Bits
import Osx360.Lib.ByteMemory

/-!
# PCI configuration space

`getConfigAddress` of `XenonPCI.hpp` and the configuration accesses of `XenonPCI.cpp`, on the bytes behind `_configMem`.
A function has 4096 bytes there, and no access reaches past them: whatever is accessed, in whatever order and width, the
mapping behaves as one memory for each function, least significant byte first (`config_refines`).
-/

set_option autoImplicit false

namespace Osx360.Pci

open Osx360.Lib

/-! ## The accesses -/

/-- `IOPCIAddressSpace`, the fields that name a function. -/
structure IOPCIAddressSpace where
  busNum : BitVec 8
  deviceNum : BitVec 5
  functionNum : BitVec 3
  deriving DecidableEq

def getConfigAddress (space : IOPCIAddressSpace) : Word :=
  (space.busNum.setWidth 32 <<< 8 ||| space.deviceNum.setWidth 32 <<< 3 ||| space.functionNum.setWidth 32) <<< 12

/-- The address of an access. -/
def accessAddress (space : IOPCIAddressSpace) (offset : Byte) : Word := getConfigAddress space + offset.setWidth 32

/-- A little-endian read of `n` bytes. -/
def configRead (n : ℕ) (configMem : ℕ → Byte) (space : IOPCIAddressSpace) (offset : Byte) : BitVec (8 * n) :=
  BitVec.ofNat (8 * n) (readLe (cells n configMem (accessAddress space offset).toNat))

/-- A little-endian write of `n` bytes. -/
def configWrite (n : ℕ) (configMem : ℕ → Byte) (space : IOPCIAddressSpace) (offset : Byte) (data : BitVec (8 * n)) :
    ℕ → Byte :=
  store configMem (accessAddress space offset).toNat (leBytes n data.toNat)

def configRead32 : (ℕ → Byte) → IOPCIAddressSpace → Byte → BitVec 32 := configRead 4
def configRead16 : (ℕ → Byte) → IOPCIAddressSpace → Byte → BitVec 16 := configRead 2
def configRead8 : (ℕ → Byte) → IOPCIAddressSpace → Byte → BitVec 8 := configRead 1
def configWrite32 : (ℕ → Byte) → IOPCIAddressSpace → Byte → BitVec 32 → ℕ → Byte := configWrite 4
def configWrite16 : (ℕ → Byte) → IOPCIAddressSpace → Byte → BitVec 16 → ℕ → Byte := configWrite 2
def configWrite8 : (ℕ → Byte) → IOPCIAddressSpace → Byte → BitVec 8 → ℕ → Byte := configWrite 1

/-! ## Runs of accesses -/

inductive ConfigOp
  | read32 (space : IOPCIAddressSpace) (offset : Byte)
  | read16 (space : IOPCIAddressSpace) (offset : Byte)
  | read8 (space : IOPCIAddressSpace) (offset : Byte)
  | write32 (space : IOPCIAddressSpace) (offset : Byte) (data : BitVec 32)
  | write16 (space : IOPCIAddressSpace) (offset : Byte) (data : BitVec 16)
  | write8 (space : IOPCIAddressSpace) (offset : Byte) (data : BitVec 8)

/-- What an access answers, if it reads, and the bytes after it. -/
def ConfigOp.exec (configMem : ℕ → Byte) : ConfigOp → Option ℕ × (ℕ → Byte)
  | .read32 space offset => (some (configRead32 configMem space offset).toNat, configMem)
  | .read16 space offset => (some (configRead16 configMem space offset).toNat, configMem)
  | .read8 space offset => (some (configRead8 configMem space offset).toNat, configMem)
  | .write32 space offset data => (none, configWrite32 configMem space offset data)
  | .write16 space offset data => (none, configWrite16 configMem space offset data)
  | .write8 space offset data => (none, configWrite8 configMem space offset data)

def runAccesses (configMem : ℕ → Byte) : List ConfigOp → List (Option ℕ) × (ℕ → Byte)
  | [] => ([], configMem)
  | op :: ops =>
    let r := op.exec configMem
    let rest := runAccesses r.2 ops
    (r.1 :: rest.1, rest.2)

/-! ## One memory for each function -/

/-- The configuration spaces of the functions, each by its own offsets. -/
abbrev ConfigSpaces := IOPCIAddressSpace → ℕ → Byte

/-- The number in `n` bytes of a function. -/
def ConfigSpaces.read (n : ℕ) (s : ConfigSpaces) (space : IOPCIAddressSpace) (offset : Byte) : ℕ :=
  readLe (cells n (s space) offset.toNat)

def ConfigSpaces.write (n : ℕ) (s : ConfigSpaces) (space : IOPCIAddressSpace) (offset : Byte) (v : ℕ) : ConfigSpaces :=
  fun g => if g = space then store (s space) offset.toNat (leBytes n v) else s g

/-- What the access means. -/
def ConfigOp.meaning (s : ConfigSpaces) : ConfigOp → Option ℕ × ConfigSpaces
  | .read32 space offset => (some (s.read 4 space offset), s)
  | .read16 space offset => (some (s.read 2 space offset), s)
  | .read8 space offset => (some (s.read 1 space offset), s)
  | .write32 space offset data => (none, s.write 4 space offset data.toNat)
  | .write16 space offset data => (none, s.write 2 space offset data.toNat)
  | .write8 space offset data => (none, s.write 1 space offset data.toNat)

def runMeaning (s : ConfigSpaces) : List ConfigOp → List (Option ℕ) × ConfigSpaces
  | [] => ([], s)
  | op :: ops =>
    let r := op.meaning s
    let rest := runMeaning r.2 ops
    (r.1 :: rest.1, rest.2)

/-- The mapping holds the bytes of the functions. -/
def Maps (configMem : ℕ → Byte) (s : ConfigSpaces) : Prop :=
  ∀ space, ∀ o < 4096, configMem ((getConfigAddress space).toNat + o) = s space o

/-! ## Addresses -/

section Addresses

variable {space other : IOPCIAddressSpace} {offset : Byte} {n : ℕ}

/-- The number of a function: bus, device and function number side by side. -/
def functionIndex (space : IOPCIAddressSpace) : ℕ :=
  space.busNum.toNat * 256 + space.deviceNum.toNat * 8 + space.functionNum.toNat

theorem toNat_getConfigAddress (space : IOPCIAddressSpace) :
    (getConfigAddress space).toNat = functionIndex space * 4096 := by
  obtain ⟨bus, dev, fn⟩ := space
  have hfields : bus.setWidth 32 <<< 8 ||| dev.setWidth 32 <<< 3 ||| fn.setWidth 32 =
      (bus ++ dev ++ fn).setWidth 32 := by
    ext i hi
    simp
    grind
  have hindex : (bus ++ dev ++ fn).toNat = bus.toNat * 256 + dev.toNat * 8 + fn.toNat := by
    rw [BitVec.toNat_append, BitVec.toNat_append]
    have hd := dev.isLt
    have hf := fn.isLt
    rw [← Nat.shiftLeft_add_eq_or_of_lt hd, ← Nat.shiftLeft_add_eq_or_of_lt hf, Nat.shiftLeft_eq, Nat.shiftLeft_eq]
    omega
  have hb := bus.isLt
  have hd := dev.isLt
  have hf := fn.isLt
  rw [getConfigAddress, hfields, BitVec.toNat_shiftLeft, BitVec.toNat_setWidth, hindex, Nat.shiftLeft_eq, functionIndex]
  simp only
  omega

theorem functionIndex_inj (h : functionIndex space = functionIndex other) : space = other := by
  obtain ⟨b, d, f⟩ := space
  obtain ⟨b', d', f'⟩ := other
  have hd := d.isLt
  have hf := f.isLt
  have hd' := d'.isLt
  have hf' := f'.isLt
  simp only [functionIndex] at h
  rw [IOPCIAddressSpace.mk.injEq]
  refine ⟨BitVec.eq_of_toNat_eq ?_, BitVec.eq_of_toNat_eq ?_, BitVec.eq_of_toNat_eq ?_⟩ <;> omega

theorem toNat_accessAddress (space : IOPCIAddressSpace) (offset : Byte) :
    (accessAddress space offset).toNat = (getConfigAddress space).toNat + offset.toNat := by
  have hb := space.busNum.isLt
  have hd := space.deviceNum.isLt
  have hf := space.functionNum.isLt
  have ho := offset.isLt
  rw [accessAddress, BitVec.toNat_add, BitVec.toNat_setWidth, toNat_getConfigAddress, functionIndex]
  omega

/-- The bytes of another function are not among those of an access. -/
theorem disjoint_of_ne (hne : other ≠ space) (hn : n ≤ 4) {o : ℕ} (ho : o < 4096) :
    (getConfigAddress other).toNat + o < (accessAddress space offset).toNat ∨
      (accessAddress space offset).toNat + n ≤ (getConfigAddress other).toNat + o := by
  have hoff := offset.isLt
  have hindex : functionIndex other ≠ functionIndex space := fun h => hne (functionIndex_inj h)
  rw [toNat_accessAddress, toNat_getConfigAddress, toNat_getConfigAddress]
  omega

end Addresses

/-! ## Refinement -/

section Refinement

variable {configMem : ℕ → Byte} {s : ConfigSpaces} {space : IOPCIAddressSpace} {offset : Byte} {n : ℕ}

theorem cells_maps (h : Maps configMem s) (hn : n ≤ 4) :
    cells n configMem (accessAddress space offset).toNat = cells n (s space) offset.toNat := by
  have hoff := offset.isLt
  refine cells_congr fun i hi => ?_
  rw [toNat_accessAddress, Nat.add_assoc]
  exact h space _ (by omega)

theorem readLe_lt (bs : List Byte) : readLe bs < 256 ^ bs.length := by
  induction bs with
  | nil => exact Nat.one_pos
  | cons b bs ih =>
    have hb := b.isLt
    have hcons : readLe (b :: bs) = b.toNat + 256 * readLe bs := rfl
    rw [hcons, List.length_cons, Nat.pow_succ']
    omega

theorem configRead_maps (h : Maps configMem s) (hn : n ≤ 4) :
    (configRead n configMem space offset).toNat = s.read n space offset := by
  have hlt := readLe_lt (cells n (s space) offset.toNat)
  rw [length_cells, show 256 = 2 ^ 8 from rfl, ← Nat.pow_mul] at hlt
  rw [configRead, cells_maps h hn, BitVec.toNat_ofNat, Nat.mod_eq_of_lt hlt]
  rfl

theorem configWrite_maps (h : Maps configMem s) (hn : n ≤ 4) (data : BitVec (8 * n)) :
    Maps (configWrite n configMem space offset data) (s.write n space offset data.toNat) := by
  intro other o ho
  have hoff := offset.isLt
  rw [configWrite, ConfigSpaces.write]
  by_cases hother : other = space
  · subst hother
    rw [if_pos rfl, toNat_accessAddress, store, store]
    have hle : (getConfigAddress other).toNat + offset.toNat ≤ (getConfigAddress other).toNat + o ↔ offset.toNat ≤ o :=
      Nat.add_le_add_iff_left
    have hsub : (getConfigAddress other).toNat + o - ((getConfigAddress other).toNat + offset.toNat) =
        o - offset.toNat := Nat.add_sub_add_left _ _ _
    rw [if_congr hle rfl rfl, hsub, h other o ho]
  · rw [if_neg hother, store_of_disjoint]
    · exact h other o ho
    · rw [length_leBytes]
      exact disjoint_of_ne hother hn ho

theorem exec_maps (h : Maps configMem s) (op : ConfigOp) :
    (op.exec configMem).1 = (op.meaning s).1 ∧ Maps (op.exec configMem).2 (op.meaning s).2 := by
  cases op with
  | read32 space offset => exact ⟨congrArg some (configRead_maps h (by decide)), h⟩
  | read16 space offset => exact ⟨congrArg some (configRead_maps h (by decide)), h⟩
  | read8 space offset => exact ⟨congrArg some (configRead_maps h (by decide)), h⟩
  | write32 space offset data => exact ⟨rfl, configWrite_maps (n := 4) h (by decide) data⟩
  | write16 space offset data => exact ⟨rfl, configWrite_maps (n := 2) h (by decide) data⟩
  | write8 space offset data => exact ⟨rfl, configWrite_maps (n := 1) h (by decide) data⟩

/-- **The mapping is one memory for each function**, over any sequence of accesses. -/
theorem config_refines (h : Maps configMem s) (ops : List ConfigOp) :
    (runAccesses configMem ops).1 = (runMeaning s ops).1 ∧
      Maps (runAccesses configMem ops).2 (runMeaning s ops).2 := by
  induction ops generalizing configMem s with
  | nil => exact ⟨rfl, h⟩
  | cons op ops ih =>
    obtain ⟨hanswer, hmaps⟩ := exec_maps h op
    obtain ⟨hanswers, hfinal⟩ := ih hmaps
    exact ⟨congrArg₂ List.cons hanswer hanswers, hfinal⟩

/-- The device identification of a function, after a byte of it was written. -/
theorem config_refines_id :
    (runAccesses (fun _ => 0) [.write8 ⟨1, 2, 0⟩ 1 0x14, .read32 ⟨1, 2, 0⟩ 0]).1 =
        (runMeaning (fun _ _ => 0) [.write8 ⟨1, 2, 0⟩ 1 0x14, .read32 ⟨1, 2, 0⟩ 0]).1 ∧
      Maps (runAccesses (fun _ => 0) [.write8 ⟨1, 2, 0⟩ 1 0x14, .read32 ⟨1, 2, 0⟩ 0]).2
        (runMeaning (fun _ _ => 0) [.write8 ⟨1, 2, 0⟩ 1 0x14, .read32 ⟨1, 2, 0⟩ 0]).2 :=
  config_refines (fun _ _ _ => rfl) _

end Refinement

end Osx360.Pci
